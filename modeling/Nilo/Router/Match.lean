import Nilo.Router.Planted
import Mathlib.Data.List.Pairwise
import Mathlib.Data.List.Perm.Basic

/-!
# Registering routes and matching requests (`addNamed`, `matchInto`, `capture` in
`http/router.zig`)

`add` takes a route in, or refuses its pattern or a second one of its method and shape.
`matchExact` finds the route of a method for a request path and captures its parameters;
`matchInto` lets a `HEAD` nobody registered be answered by the `GET` route. The results say
which route is found by the patterns alone: the first by `ranks` among those that answer the
path, whatever the order they were registered in.
-/

namespace Nilo.Routing

open Text (Bytes)

/-! ## Registering -/

/-- The listeners of a route bound to none in particular: every bit. -/
def everyListener : Nat := 2 ^ 32 - 1

/-- What a route is registered with. -/
structure Declared (α : Type) where
  method : Method
  /-- The listeners it is bound to, one bit each. -/
  listeners : Nat
  pattern : Bytes
  handler : α

/-- The pieces of a pattern, each as what it is. -/
def segmentsOf (pattern : Bytes) : List Segment := (pieces (trimSlashes pattern)).map Segment.of

/-- The route `addNamed` puts in the list. -/
def Declared.route {α : Type} (d : Declared α) : Route α where
  method := d.method
  listeners := d.listeners
  pattern := d.pattern
  handler := d.handler
  segments := segmentsOf d.pattern
  wildcardTail := endsInWildcard (segmentsOf d.pattern)

structure Router (α : Type) where
  routes : List (Route α) := []
  nodes : Arena := []

/-- Why a route is not taken. -/
inductive Refused where
  /-- `validatePattern`, while compiling. -/
  | pattern
  | duplicateRoute
deriving DecidableEq, Repr

namespace Router

variable {α : Type}

/-- A route of this method answering exactly the same paths is there already. -/
def conflicting (rt : Router α) (m : Method) (segments : List Segment) : Bool :=
  rt.routes.any fun existing => existing.method = m && sameShape existing.segments segments

/-- `addNamed`. -/
def add (rt : Router α) (d : Declared α) : Except Refused (Router α) :=
  if d.pattern.head? ≠ some slash ∨ accepted (segmentsOf d.pattern) = false then .error .pattern
  else if rt.conflicting d.method (segmentsOf d.pattern) then .error .duplicateRoute
  else .ok {
    routes := rt.routes ++ [d.route]
    nodes := rt.nodes.plant d.method (segmentsOf d.pattern) rt.routes.length }

/-- Every route of a list, in its order. -/
def register (decls : List (Declared α)) : Except Refused (Router α) := decls.foldlM add {}

/-! ## Matching -/

end Router

structure Match (α : Type) where
  handler : α
  params : List (Bytes × Bytes)
  /-- Where the route sits in the list. -/
  index : Nat

namespace Router

variable {α : Type}

/-- Where a piece begins in the path it was split from: after each piece before it and the
slash that ends it. -/
def offset (parts : List Bytes) (i : Nat) : Nat := ((parts.take i).map (·.length + 1)).sum

/-- The parameters of a route that was found. -/
def capture (route : Route α) (trimmed : Bytes) (parts : List Bytes) : List (Bytes × Bytes) :=
  let segments := route.fixedSegments
  let params := ((segments.zip parts).filter (·.1.kind = .param)).map fun p => (p.1.text, p.2)
  if route.wildcardTail then
    let rest := if segments.length < parts.length then trimmed.drop (offset parts segments.length)
      else []
    params ++ [(wildcard, rest)]
  else params

def matchExact (rt : Router α) (m : Method) (trimmed : Bytes) (path : SplitPath) :
    Option (Match α) :=
  match rt.nodes.find m path.items path.deep with
  | none => none
  | some i =>
    match rt.routes[i]? with
    | none => none
    | some route => some ⟨route.handler, capture route trimmed path.items, i⟩

/-- The route of this method for a request path. -/
def matchMethod (rt : Router α) (m : Method) (path : Bytes) : Option (Match α) :=
  let trimmed := trimSlashes path
  rt.matchExact m trimmed (splitPath trimmed)

/-- The route for a request: a `HEAD` nobody registered is answered by the `GET` route. -/
def matchInto (rt : Router α) (m : Method) (path : Bytes) : Option (Match α) :=
  match rt.matchMethod m path with
  | some found => some found
  | none => if m = .head then rt.matchMethod .get path else none

end Router

/-- The segments of a request path, however many there are. -/
def segmentsIn (path : Bytes) : List Bytes := pieces (trimSlashes path)

/-! ## Two patterns of one shape -/

/-- A segment as `sameShape` sees it: no shape for a `*`. -/
def Segment.seen (s : Segment) : Option Shape :=
  if s.kind = .wildcard then none else some s.shape

theorem sameShape_cons {x y : Segment} :
    (decide (x.kind = y.kind) && (decide (x.kind ≠ .literal) || decide (x.text = y.text))) = true ↔
      x.seen = y.seen := by
  obtain ⟨xt, xk⟩ := x
  obtain ⟨yt, yk⟩ := y
  cases xk <;> cases yk <;> simp [Segment.seen, Segment.shape]

theorem sameShape_iff : ∀ {a b : List Segment},
    sameShape a b = true ↔ a.map Segment.seen = b.map Segment.seen
  | [], [] => by simp [sameShape]
  | [], _ :: _ => by simp [sameShape]
  | _ :: _, [] => by simp [sameShape]
  | x :: a, y :: b => by
    rw [sameShape, Bool.and_eq_true, sameShape_cons, sameShape_iff]
    simp

variable {α : Type}

namespace Route

variable {r r' : Route α}

theorem WellFormed.seen (h : r.WellFormed) : r.segments.map Segment.seen =
    r.shapes.map some ++ if r.wildcardTail then [none] else [] := by
  have hfixed : r.fixedSegments.map Segment.seen = r.shapes.map some := by
    rw [Route.shapes, List.map_map]
    refine List.map_congr_left fun s hs => ?_
    simp [Segment.seen, h.fixed_kind s hs]
  conv_lhs => rw [h.split]
  rw [List.map_append, hfixed]
  cases r.wildcardTail <;> simp [Segment.seen]

/-- They are of one shape when they ask for the same segments and end the same way. -/
theorem WellFormed.sameShape (h : r.WellFormed) (h' : r'.WellFormed) :
    sameShape r.segments r'.segments = true ↔
      r.shapes = r'.shapes ∧ r.wildcardTail = r'.wildcardTail := by
  rw [sameShape_iff, h.seen, h'.seen]
  constructor
  · intro heq
    have hshapes : r.shapes = r'.shapes := by
      have := congrArg (List.filterMap id) heq
      cases ht : r.wildcardTail <;> cases ht' : r'.wildcardTail <;>
        simpa [List.filterMap_append, ht, ht'] using this
    refine ⟨hshapes, ?_⟩
    rw [hshapes, List.append_cancel_left_eq] at heq
    cases ht : r.wildcardTail <;> cases ht' : r'.wildcardTail <;> simp [ht, ht'] at heq ⊢
  · rintro ⟨hs, ht⟩
    rw [hs, ht]

end Route

/-! ## What a router holds -/

namespace Declared

variable {d e : Declared α}

/-- Its pattern is one the router takes. -/
def Fine (d : Declared α) : Prop :=
  d.pattern.head? = some slash ∧ accepted (segmentsOf d.pattern) = true

theorem Fine.wellFormed (h : d.Fine) : d.route.WellFormed := ⟨h.2, rfl⟩

/-- Two that answer the same requests. -/
def Clash (d e : Declared α) : Prop :=
  d.method = e.method ∧ d.route.shapes = e.route.shapes ∧
    d.route.wildcardTail = e.route.wildcardTail

theorem Clash.symm (h : d.Clash e) : e.Clash d := ⟨h.1.symm, h.2.1.symm, h.2.2.symm⟩

end Declared

/-- A set of routes a router takes, whatever their order. -/
structure Agreeing (decls : List (Declared α)) : Prop where
  fine : ∀ d ∈ decls, d.Fine
  apart : decls.Pairwise fun d e => ¬ d.Clash e

theorem Agreeing.perm {decls decls' : List (Declared α)} (h : Agreeing decls)
    (hp : decls'.Perm decls) : Agreeing decls' := by
  refine ⟨fun d hd => h.fine d (hp.subset hd), ?_⟩
  refine (hp.pairwise_iff ?_).2 h.apart
  intro d e hde hed
  exact hde hed.symm

namespace Router

variable {rt rt' : Router α} {decls rest : List (Declared α)} {d : Declared α}

/-- The router the routes of a list were put in. -/
structure Holds (rt : Router α) (decls : List (Declared α)) : Prop extends Agreeing decls where
  routes : rt.routes = decls.map Declared.route
  planted : Arena.Planted (Arena.rooted rt.nodes) rt.routes

theorem holds_empty : Holds ({} : Router α) [] :=
  ⟨⟨by simp, .nil⟩, rfl, Arena.planted_root⟩

theorem Holds.conflicting (h : rt.Holds decls) (hd : d.Fine) :
    rt.conflicting d.method (segmentsOf d.pattern) = true ↔ ∃ e ∈ decls, e.Clash d := by
  unfold Router.conflicting
  rw [h.routes, List.any_map, List.any_eq_true]
  refine exists_congr fun e => and_congr_right fun he => ?_
  have hshape := (h.fine e he).wellFormed.sameShape hd.wellFormed
  simp only [Function.comp, Bool.and_eq_true, decide_eq_true_eq]
  exact and_congr_right' hshape

/-- One more route: taken when its pattern is fine and it clashes with none. -/
theorem Holds.add (h : rt.Holds decls) :
    match rt.add d with
    | .ok rt' => d.Fine ∧ (∀ e ∈ decls, ¬ e.Clash d) ∧ rt'.Holds (decls ++ [d])
    | .error _ => ¬ (d.Fine ∧ ∀ e ∈ decls, ¬ e.Clash d) := by
  unfold Router.add
  split_ifs with hbad hdup
  · rintro ⟨⟨hslash, haccepted⟩, -⟩
    rcases hbad with hbad | hbad
    · exact hbad hslash
    · rw [haccepted] at hbad
      cases hbad
  · have hfine : d.Fine := by simpa [Declared.Fine, not_or] using hbad
    rintro ⟨-, hno⟩
    obtain ⟨e, he, hclash⟩ := (h.conflicting hfine).1 hdup
    exact hno e he hclash
  · have hfine : d.Fine := by simpa [Declared.Fine, not_or] using hbad
    have hno : ∀ e ∈ decls, ¬ e.Clash d := by
      intro e he hclash
      exact hdup ((h.conflicting hfine).2 ⟨e, he, hclash⟩)
    have hfresh : ∀ k, ¬ Arena.Stands rt.routes d.route.method d.route.shapes
        d.route.wildcardTail k := by
      rintro k ⟨r, hk, hm, hs, ht⟩
      have hr := List.mem_of_getElem? hk
      rw [h.routes] at hr
      obtain ⟨e, he, rfl⟩ := List.mem_map.1 hr
      exact hno e he ⟨hm, hs, ht⟩
    have hplanted := Arena.plant_planted hfine.wellFormed h.planted hfresh
    refine ⟨hfine, hno, ⟨?_, ?_⟩, ?_, ?_⟩
    · intro e he
      rcases List.mem_append.1 he with he | he
      · exact h.fine e he
      · obtain rfl := List.mem_singleton.1 he
        exact hfine
    · refine List.pairwise_append.2 ⟨h.apart, List.pairwise_singleton _ _, ?_⟩
      intro e he d' hd'
      obtain rfl := List.mem_singleton.1 hd'
      exact hno e he
    · simp [h.routes]
    · exact hplanted.rooted

/-- The routes left, put in after those there. -/
theorem Holds.register : ∀ (rest : List (Declared α)) {decls : List (Declared α)} {rt : Router α},
    rt.Holds decls → match rest.foldlM Router.add rt with
    | .ok rt' => rt'.Holds (decls ++ rest)
    | .error _ => ¬ Agreeing (decls ++ rest)
  | [], decls, rt, h => by simpa [List.foldlM, pure, Except.pure] using h
  | d :: rest, decls, rt, h => by
    have hadd := h.add (d := d)
    rw [List.foldlM_cons]
    cases hd : rt.add d with
    | error e =>
      rw [hd] at hadd
      intro hall
      refine hadd ⟨hall.fine d (by simp), ?_⟩
      intro e he
      exact (List.pairwise_append.1 hall.apart).2.2 e he d List.mem_cons_self
    | ok rt' =>
      rw [hd] at hadd
      have ih := Holds.register rest hadd.2.2
      rw [List.append_assoc, List.singleton_append] at ih
      exact ih

theorem register_holds (h : register decls = .ok rt) : rt.Holds decls := by
  have := Holds.register decls holds_empty
  unfold Router.register at h
  rw [h] at this
  exact this

theorem register_agreeing (h : Agreeing decls) : ∃ rt, register decls = .ok rt := by
  have hreg := Holds.register decls holds_empty
  cases hr : register decls with
  | ok rt => exact ⟨rt, rfl⟩
  | error e =>
    unfold Router.register at hr
    rw [hr] at hreg
    exact absurd h hreg

/-! ## What is captured -/

/-- The text from where a piece begins is the pieces from there on. -/
theorem drop_offset : ∀ {l : List Bytes} {i : Nat}, i < l.length →
    ([slash].intercalate l).drop (offset l i) = [slash].intercalate (l.drop i)
  | _, 0, _ => rfl
  | [_], _ + 1, h => by simp at h
  | x :: y :: l, i + 1, h => by
    have ih : ([slash].intercalate (y :: l)).drop (offset (y :: l) i) =
        [slash].intercalate ((y :: l).drop i) := drop_offset (by simpa using h)
    have hoff : offset (x :: y :: l) (i + 1) = x.length + (1 + offset (y :: l) i) := by
      simp [offset]
      omega
    rw [hoff, List.intercalate_cons_cons, List.append_assoc, List.drop_append,
      List.drop_of_length_le (by omega)]
    simpa [Nat.add_comm 1] using ih

/-- The parameters are the segments at the places the pattern has them. -/
theorem capture_eq {r : Route α} (hr : r.WellFormed) {trimmed : Bytes} :
    capture r trimmed (splitPath trimmed).items = r.params (pieces trimmed) := by
  have hlen : r.fixedSegments.length + r.wildcardTail.toNat ≤ maxSegments := by
    simpa [Route.shapes] using hr.length_le
  have hzip : r.fixedSegments.zip ((pieces trimmed).take maxSegments) =
      r.fixedSegments.zip (pieces trimmed) := by
    calc r.fixedSegments.zip ((pieces trimmed).take maxSegments)
        = (r.fixedSegments.take maxSegments).zip ((pieces trimmed).take maxSegments) := by
          rw [List.take_of_length_le (show r.fixedSegments.length ≤ maxSegments by omega)]
      _ = (r.fixedSegments.zip (pieces trimmed)).take maxSegments :=
          List.take_zipWith.symm
      _ = r.fixedSegments.zip (pieces trimmed) := by
          rw [List.take_of_length_le]
          rw [List.length_zip]
          omega
  rw [splitPath_eq]
  unfold capture Route.params
  simp only [hzip]
  cases ht : r.wildcardTail with
  | false => simp
  | true =>
    rw [ht] at hlen
    simp only [Bool.toNat_true] at hlen
    simp only [if_true, List.append_cancel_left_eq, List.cons.injEq, Prod.mk.injEq, true_and,
      and_true, List.length_take]
    by_cases hmore : r.fixedSegments.length < (pieces trimmed).length
    · rw [if_pos (by omega)]
      have hoff : offset ((pieces trimmed).take maxSegments) r.fixedSegments.length =
          offset (pieces trimmed) r.fixedSegments.length := by
        rw [offset, List.take_take, Nat.min_eq_left (by omega)]
        rfl
      have htext : trimmed = [slash].intercalate (pieces trimmed) :=
        (List.intercalate_splitOn slash).symm
      rw [hoff, ← drop_offset hmore, ← htext]
    · rw [if_neg (by omega), List.drop_of_length_le (by omega)]
      rfl

/-! ## Which route is found -/

variable {m : Method} {path : Bytes}

/-- The search over a request path gives nothing when no route of the method answers it, or
one that does and that none which does comes before. -/
theorem Holds.find (h : rt.Holds decls) (m : Method) (path : Bytes) {sp : SplitPath} (hsp : sp = splitPath (trimSlashes path)) :
    match rt.nodes.find m sp.items sp.deep with
    | none => ∀ d ∈ decls, d.method = m → ¬ d.route.Answers (segmentsIn path)
    | some k => ∃ d, decls[k]? = some d ∧ d.method = m ∧ d.route.Answers (segmentsIn path) ∧
        ∀ d' ∈ decls, d'.method = m → d'.route.Answers (segmentsIn path) →
          UpTo d.route.ranks d'.route.ranks := by
  have hbest : Arena.Best rt.routes m sp.deep sp.items [] (rt.nodes.find m sp.items sp.deep) := by
    rw [Arena.find_eq_explore]
    exact h.planted.best_explore rfl
  have hfits : ∀ d ∈ decls, (Fits d.route.shapes d.route.wildcardTail sp.items sp.deep ↔
      d.route.Answers (segmentsIn path)) := by
    intro d hd
    rw [hsp]
    exact (h.fine d hd).wellFormed.fits_splitPath
  -- a route of the method that answers the path is open to the search from the root
  have hopen : ∀ d ∈ decls, d.method = m → d.route.Answers (segmentsIn path) →
      ∃ k, Arena.Open rt.routes m sp.deep sp.items [] k d.route.shapes d.route.wildcardTail := by
    intro d hd hm ha
    obtain ⟨k, hk⟩ := List.mem_iff_getElem?.1 hd
    refine ⟨k, ⟨d.route, ?_, hm, rfl, rfl⟩, (hfits d hd).2 ha⟩
    rw [h.routes, List.getElem?_map, hk]
    rfl
  cases hfind : rt.nodes.find m sp.items sp.deep with
  | none =>
    rw [hfind] at hbest
    intro d hd hm ha
    obtain ⟨k, ho⟩ := hopen d hd hm ha
    exact hbest _ _ _ ho
  | some k =>
    rw [hfind] at hbest
    obtain ⟨t, tail, ⟨⟨r, hk, hm, rfl, rfl⟩, hf⟩, hleast⟩ := hbest
    rw [h.routes, List.getElem?_map] at hk
    obtain ⟨d, hd, rfl⟩ := Option.map_eq_some_iff.1 hk
    have hmem := List.mem_of_getElem? hd
    refine ⟨d, hd, hm, (hfits d hmem).1 hf, ?_⟩
    intro d' hd' hm' ha'
    obtain ⟨k', ho⟩ := hopen d' hd' hm' ha'
    exact hleast _ _ _ ho

end Router

/-! ## The most specific route -/

/-- Two patterns that fit one path and rank alike are one pattern: where both have a literal
it is the piece of the path. -/
theorem fits_ranks : ∀ {t t' : List Shape} {tail tail' : Bool} {parts : List Bytes} {more : Bool},
    Fits t tail parts more → Fits t' tail' parts more → ranksOf t tail = ranksOf t' tail' →
    t = t' ∧ tail = tail'
  | [], [], tail, tail', _, _, _, _, h => by
    cases tail <;> cases tail' <;> simp [ranksOf] at h ⊢
  | [], sh' :: t', tail, tail', _, _, _, _, h => by
    cases tail <;> cases sh' <;> simp [ranksOf, Shape.rank] at h
  | sh :: t, [], tail, tail', _, _, _, _, h => by
    cases tail' <;> cases sh <;> simp [ranksOf, Shape.rank] at h
  | sh :: t, sh' :: t', tail, tail', [], _, hf, _, _ => hf.elim
  | sh :: t, sh' :: t', tail, tail', part :: parts, more, hf, hf', h => by
    simp only [Arena.ranksOf_cons, List.cons.injEq] at h
    obtain ⟨rfl, rfl⟩ := fits_ranks hf.2 hf'.2 h.2
    have hsh : sh = sh' := by
      have h1 := hf.1
      have h2 := hf'.1
      cases sh <;> cases sh' <;> simp_all [Shape.rank, Shape.fits]
    exact ⟨by rw [hsh], rfl⟩

/-- The route that comes first by `ranks` among those of the method that answer the path. -/
structure MostSpecific (decls : List (Declared α)) (m : Method) (path : Bytes) (d : Declared α) :
    Prop where
  registered : d ∈ decls
  method : d.method = m
  answers : d.route.Answers (segmentsIn path)
  first : ∀ d' ∈ decls, d'.method = m → d'.route.Answers (segmentsIn path) → d' ≠ d →
    Before d.route.ranks d'.route.ranks

section
variable {decls decls' : List (Declared α)} {m : Method} {path : Bytes} {d d' : Declared α}

theorem MostSpecific.unique (h : MostSpecific decls m path d) (h' : MostSpecific decls m path d') :
    d = d' := by
  by_contra hne
  have hlt := h.first d' h'.registered h'.method h'.answers (fun e => hne e.symm)
  have hgt := h'.first d h.registered h.method h.answers hne
  exact hlt.upTo hgt

theorem MostSpecific.perm (h : MostSpecific decls m path d) (hp : decls'.Perm decls) :
    MostSpecific decls' m path d :=
  ⟨hp.symm.subset h.registered, h.method, h.answers, fun d' hd' => h.first d' (hp.subset hd')⟩

/-- Among routes that do not clash the least is strictly so. -/
theorem Agreeing.mostSpecific (h : Agreeing decls) (hd : d ∈ decls) (hm : d.method = m)
    (ha : d.route.Answers (segmentsIn path))
    (hleast : ∀ d' ∈ decls, d'.method = m → d'.route.Answers (segmentsIn path) →
      UpTo d.route.ranks d'.route.ranks) : MostSpecific decls m path d := by
  refine ⟨hd, hm, ha, ?_⟩
  intro d' hd' hm' ha' hne
  by_contra hnot
  have heq : d.route.ranks = d'.route.ranks := UpTo.antisymm (hleast d' hd' hm' ha') hnot
  obtain ⟨hshapes, htail⟩ := fits_ranks ha ha' heq
  have hapart : ¬ d.Clash d' := by
    have : Std.Symm fun d e : Declared α => ¬ d.Clash e := ⟨fun _ _ hxy hyx => hxy hyx.symm⟩
    exact h.apart.forall hd hd' (fun e => hne e.symm)
  exact hapart ⟨hm.trans hm'.symm, hshapes, htail⟩

end

namespace Router

variable {rt : Router α} {decls : List (Declared α)} {m : Method} {path : Bytes}

/-- What a request for a method and a path is given. -/
theorem Holds.matchMethod (h : rt.Holds decls) (m : Method) (path : Bytes) :
    match rt.matchMethod m path with
    | none => ∀ d ∈ decls, d.method = m → ¬ d.route.Answers (segmentsIn path)
    | some x => ∃ d, decls[x.index]? = some d ∧ MostSpecific decls m path d ∧
        x.handler = d.handler ∧ x.params = d.route.params (segmentsIn path) := by
  have hfind := h.find m path rfl
  simp only [Router.matchMethod, matchExact]
  cases hf : rt.nodes.find m (splitPath (trimSlashes path)).items (splitPath (trimSlashes path)).deep with
  | none =>
    rw [hf] at hfind
    exact hfind
  | some k =>
    rw [hf] at hfind
    obtain ⟨d, hd, hm, ha, hleast⟩ := hfind
    have hmem := List.mem_of_getElem? hd
    have hroute : rt.routes[k]? = some d.route := by
      rw [h.routes, List.getElem?_map, hd]
      rfl
    simp only [hroute]
    exact ⟨d, hd, h.mostSpecific hmem hm ha hleast, rfl, capture_eq (h.fine d hmem).wellFormed⟩

/-- A match, but for where its route sits. -/
def found (x : Option (Match α)) : Option (α × List (Bytes × Bytes)) :=
  x.map fun x => (x.handler, x.params)

/-- What is found says which routes there are, and nothing of their order. -/
theorem Holds.found_eq {decls' : List (Declared α)} {rt' : Router α} (h : rt.Holds decls)
    (h' : rt'.Holds decls') (hp : decls'.Perm decls) :
    found (rt'.matchMethod m path) = found (rt.matchMethod m path) := by
  have hm := h.matchMethod m path
  have hm' := h'.matchMethod m path
  cases hx : rt.matchMethod m path with
  | none =>
    rw [hx] at hm
    cases hx' : rt'.matchMethod m path with
    | none => rfl
    | some x' =>
      rw [hx'] at hm'
      obtain ⟨d', -, hd', -⟩ := hm'
      exact absurd hd'.answers (hm d' (hp.subset hd'.registered) hd'.method)
  | some x =>
    rw [hx] at hm
    obtain ⟨d, -, hd, hhandler, hparams⟩ := hm
    cases hx' : rt'.matchMethod m path with
    | none =>
      rw [hx'] at hm'
      exact absurd hd.answers (hm' d (hp.symm.subset hd.registered) hd.method)
    | some x' =>
      rw [hx'] at hm'
      obtain ⟨d', -, hd', hhandler', hparams'⟩ := hm'
      obtain rfl := hd'.unique (hd.perm hp)
      simp only [found, Option.map_some, hhandler, hparams, hhandler', hparams']

/-- A request is given the most specific of the routes that answer its method and path, with
the segments at the places of its parameters, or nothing when no route does; and it is given
the same whatever order the routes were registered in. -/
theorem match_mostSpecific {decls : List (Declared α)} {rt : Router α}
    (h : register decls = .ok rt) (m : Method) (path : Bytes) :
    (rt.matchMethod m path = none ↔
      ∀ d ∈ decls, d.method = m → ¬ d.route.Answers (segmentsIn path)) ∧
    (∀ x, rt.matchMethod m path = some x → ∃ d, MostSpecific decls m path d ∧
      x.handler = d.handler ∧ x.params = d.route.params (segmentsIn path)) ∧
    (∀ decls', decls'.Perm decls → ∃ rt', register decls' = .ok rt' ∧
      found (rt'.matchMethod m path) = found (rt.matchMethod m path)) := by
  have hholds := register_holds h
  have hm := hholds.matchMethod m path
  refine ⟨?_, ?_, ?_⟩
  · cases hx : rt.matchMethod m path with
    | none =>
      rw [hx] at hm
      exact iff_of_true rfl hm
    | some x =>
      rw [hx] at hm
      obtain ⟨d, -, hd, -⟩ := hm
      refine iff_of_false (by simp) ?_
      intro hno
      exact hno d hd.registered hd.method hd.answers
  · intro x hx
    rw [hx] at hm
    obtain ⟨d, -, hd, hhandler, hparams⟩ := hm
    exact ⟨d, hd, hhandler, hparams⟩
  · intro decls' hp
    obtain ⟨rt', hrt'⟩ := register_agreeing (hholds.toAgreeing.perm hp)
    exact ⟨rt', hrt', hholds.found_eq (register_holds hrt') hp⟩

end Router

/-- A table of overlapping patterns. -/
def files : List (Declared Nat) :=
  [⟨.get, everyListener, Text.ascii "/files/*", 0⟩,
    ⟨.get, everyListener, Text.ascii "/files/:name", 1⟩,
    ⟨.get, everyListener, Text.ascii "/files/readme", 2⟩]

/-- Of it `/files/a` is given the parameter's route. -/
theorem match_mostSpecific_files : ∃ rt, Router.register files = .ok rt ∧
    ∃ d, MostSpecific files .get (Text.ascii "/files/a") d ∧ d.handler = 1 ∧
      d.route.params (segmentsIn (Text.ascii "/files/a")) =
        [(Text.ascii "name", Text.ascii "a")] := by
  refine ⟨_, rfl, ?_⟩
  obtain ⟨d, hd, hhandler, hparams⟩ := (Router.match_mostSpecific
    (rfl : Router.register files = .ok _) .get (Text.ascii "/files/a")).2.1 _ rfl
  exact ⟨d, hd, hhandler.symm, hparams.symm⟩

end Nilo.Routing
