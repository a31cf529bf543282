import Nilo.Router.Match

/-!
# Answering a request on a listener (`dispatch` in `http/serve.zig`, `allowedForOn` in
`http/router.zig`)

The router matches a request without asking which listener it came in on; `dispatch` then
treats a route that is not bound to that listener as no match, and falls to a static file, to
a 405 naming the methods the listener's routes answer the path with, or to a 404. The result
says when that comes to the same as matching among the listener's routes alone: unless a
route bound elsewhere is the most specific of all that answer.
-/

namespace Nilo.Routing

open Text (Bytes)

/-! ## Listeners -/

/-- Whether a route bound to `bound` answers on the listener of this number. -/
def onListener (bound listener : Nat) : Bool :=
  decide (bound = everyListener) || (decide (listener < 32) && bound.testBit listener)

namespace Router

variable {α : Type}

/-- One turn of the loop of `allowedForOn`. -/
def allow (path : SplitPath) (listener : Option Nat) (allowed : List Method) (route : Route α) :
    List Method :=
  if route.method ∈ allowed then allowed
  else if listener.any fun on => !onListener route.listeners on then allowed
  else if route.answers path.items path.deep then allowed ++ [route.method]
  else allowed

/-- The methods that answer this path on a listener, or on any. -/
def allowedForOn (rt : Router α) (path : Bytes) (listener : Option Nat) : List Method :=
  let allowed := rt.routes.foldl (allow (splitPath (trimSlashes path)) listener) []
  if .get ∈ allowed ∧ .head ∉ allowed then allowed ++ [.head] else allowed

/-- The methods that answer this path, on whatever listener. -/
def allowedFor (rt : Router α) (path : Bytes) : List Method := rt.allowedForOn path none

end Router

/-! ## Dispatch -/

/-- The innermost call a request comes to. -/
inductive Terminal (α φ : Type) where
  | handler (found : Match α)
  | staticFile (file : φ)
  /-- 405, with the methods of its `Allow` header. -/
  | methodNotAllowed (allowed : List Method)
  /-- 204 to an `OPTIONS` that asks what a path answers. -/
  | options (allowed : List Method)
  /-- 204 to an `OPTIONS *`. -/
  | serverOptions (allowed : List Method)
  | notFound

/-- The methods an `Allow` header names: `other` is none anybody can register. -/
def allowList (allowed : List Method) : List Method := allowed.filter (· ≠ .other)

/-- `methodNotAllowedHandler`. -/
def methodNotAllowedHandler {α φ : Type} (m : Method) (allowed : List Method) : Terminal α φ :=
  if m = .options then .options (allowList (.options :: allowed))
  else .methodNotAllowed (allowList allowed)

/-- Every method some route answers. -/
def allowedAnywhere {α : Type} (rt : Router α) : List Method :=
  let all := rt.routes.map Route.method
  .options :: (if .get ∈ all then .head :: all else all)

/-- Which innermost call a request comes to. `findStatic` is what the file sets hold for a
method and a path. -/
def dispatch {α φ : Type} (rt : Router α) (findStatic : Method → Bytes → Option φ) (m : Method)
    (path : Bytes) (listener : Nat) : Terminal α φ :=
  let routable := path.head? = some slash
  let matched := if routable then
      (rt.matchInto m path).filter fun found =>
        rt.routes[found.index]?.any fun route => onListener route.listeners listener
    else none
  match matched with
  | some found => .handler found
  | none =>
    match if routable then findStatic m path else none with
    | some file => .staticFile file
    | none =>
      let allowed := if routable then rt.allowedForOn path (some listener) else []
      if allowed ≠ [] then methodNotAllowedHandler m allowed
      else if ¬ routable ∧ m = .options ∧ path.head? = some 42 then
        .serverOptions (allowList (allowedAnywhere rt))
      else .notFound

/-! ## The routes of a listener -/

variable {α φ : Type} {decls : List (Declared α)} {rt : Router α} {m : Method} {path : Bytes}
  {listener : Nat} {d d' : Declared α}

/-- The routes bound to a listener. -/
def here (decls : List (Declared α)) (listener : Nat) : List (Declared α) :=
  decls.filter fun d => onListener d.listeners listener

theorem mem_here : d ∈ here decls listener ↔ d ∈ decls ∧ onListener d.listeners listener = true :=
  List.mem_filter

/-- A route of the request's method, or a `GET` for a `HEAD`. -/
def Declared.Serves (d : Declared α) (m : Method) : Prop :=
  d.method = m ∨ m = .head ∧ d.method = .get

/-- The route a request is for: the most specific of its method, or of the `GET`s for a
`HEAD` that none of its own answers. -/
def Chosen (decls : List (Declared α)) (m : Method) (path : Bytes) (d : Declared α) : Prop :=
  MostSpecific decls m path d ∨
    m = .head ∧ (∀ e ∈ decls, e.method = .head → ¬ e.route.Answers (segmentsIn path)) ∧
      MostSpecific decls .get path d

theorem Chosen.mem (h : Chosen decls m path d) : d ∈ decls := by
  rcases h with h | ⟨-, -, h⟩
  · exact h.registered
  · exact h.registered

theorem Chosen.serves (h : Chosen decls m path d) : d.Serves m := by
  rcases h with h | ⟨rfl, -, h⟩
  · exact .inl h.method
  · exact .inr ⟨rfl, h.method⟩

theorem Chosen.answers (h : Chosen decls m path d) : d.route.Answers (segmentsIn path) := by
  rcases h with h | ⟨-, -, h⟩
  · exact h.answers
  · exact h.answers

theorem Chosen.unique (h : Chosen decls m path d) (h' : Chosen decls m path d') : d = d' := by
  rcases h with h | ⟨rfl, hno, h⟩
  · rcases h' with h' | ⟨rfl, hno', -⟩
    · exact h.unique h'
    · exact absurd h.answers (hno' d h.registered h.method)
  · rcases h' with h' | ⟨-, -, h'⟩
    · exact absurd h'.answers (hno d' h'.registered h'.method)
    · exact h.unique h'

theorem MostSpecific.here (h : MostSpecific decls m path d)
    (hon : onListener d.listeners listener = true) : MostSpecific (here decls listener) m path d :=
  ⟨mem_here.2 ⟨h.registered, hon⟩, h.method, h.answers,
    fun d' hd' => h.first d' (mem_here.1 hd').1⟩

/-- The choice among all routes is the choice among a listener's, when it is one of them. -/
theorem Chosen.here (h : Chosen decls m path d) (hon : onListener d.listeners listener = true) :
    Chosen (here decls listener) m path d := by
  rcases h with h | ⟨rfl, hno, h⟩
  · exact .inl (h.here hon)
  · exact .inr ⟨rfl, fun e he => hno e (mem_here.1 he).1, h.here hon⟩

/-! ## What the parts of the answer say -/

namespace Router

theorem Holds.matchInto (h : rt.Holds decls) (m : Method) (path : Bytes) :
    match rt.matchInto m path with
    | none => ∀ d ∈ decls, d.Serves m → ¬ d.route.Answers (segmentsIn path)
    | some x => ∃ d, decls[x.index]? = some d ∧ Chosen decls m path d ∧
        x.handler = d.handler ∧ x.params = d.route.params (segmentsIn path) := by
  have hown := h.matchMethod m path
  unfold Router.matchInto
  cases hx : rt.matchMethod m path with
  | some x =>
    rw [hx] at hown
    obtain ⟨d, hd, hbest, hrest⟩ := hown
    exact ⟨d, hd, .inl hbest, hrest⟩
  | none =>
    rw [hx] at hown
    by_cases hm : m = .head
    · subst hm
      have hget := h.matchMethod .get path
      simp only [if_true]
      cases hg : rt.matchMethod .get path with
      | some x =>
        rw [hg] at hget
        obtain ⟨d, hd, hbest, hrest⟩ := hget
        exact ⟨d, hd, .inr ⟨rfl, hown, hbest⟩, hrest⟩
      | none =>
        rw [hg] at hget
        rintro d hd (hserves | ⟨-, hserves⟩)
        · exact hown d hd hserves
        · exact hget d hd hserves
    · simp only [hm, if_false]
      rintro d hd (hserves | ⟨hhead, -⟩)
      · exact hown d hd hserves
      · exact absurd hhead hm

theorem mem_foldl_allow {sp : SplitPath} {on : Option Nat} :
    ∀ {routes : List (Route α)} {allowed : List Method},
    m ∈ routes.foldl (allow sp on) allowed ↔ m ∈ allowed ∨
      ∃ r ∈ routes, r.method = m ∧ on.all (onListener r.listeners) = true ∧
        r.answers sp.items sp.deep = true
  | [], allowed => by simp
  | r :: routes, allowed => by
    rw [List.foldl_cons, mem_foldl_allow]
    have hall : (on.any fun on => !onListener r.listeners on) = !on.all (onListener r.listeners) := by
      cases on <;> rfl
    have hturn : m ∈ allow sp on allowed r ↔ m ∈ allowed ∨
        r.method = m ∧ on.all (onListener r.listeners) = true ∧
          r.answers sp.items sp.deep = true := by
      unfold allow
      rw [hall]
      split_ifs with hin hon hans
      · constructor
        · exact .inl
        · rintro (hm | ⟨rfl, -⟩)
          · exact hm
          · exact hin
      · have hoff : on.all (onListener r.listeners) = false := by simpa using hon
        simp [hoff]
      · have hon' : on.all (onListener r.listeners) = true := by simpa using hon
        simp [hon', hans, eq_comm]
      · simp [hans]
    rw [hturn]
    simp only [List.mem_cons, exists_eq_or_imp, or_assoc]

/-- The methods named are those of the routes that answer there, and `HEAD` with `GET`. -/
theorem Holds.mem_allowedForOn (h : rt.Holds decls) {on : Option Nat} :
    m ∈ rt.allowedForOn path on ↔ ∃ d ∈ decls, on.all (onListener d.listeners) = true ∧
      d.Serves m ∧ d.route.Answers (segmentsIn path) := by
  have hfold : ∀ {m}, m ∈ rt.routes.foldl (allow (splitPath (trimSlashes path)) on) [] ↔
      ∃ d ∈ decls, on.all (onListener d.listeners) = true ∧ d.method = m ∧
        d.route.Answers (segmentsIn path) := by
    intro m
    rw [mem_foldl_allow, h.routes]
    constructor
    · rintro (hm | ⟨r, hr, hm, hon, ha⟩)
      · cases hm
      · obtain ⟨d, hd, rfl⟩ := List.mem_map.1 hr
        have hwell := (h.fine d hd).wellFormed
        exact ⟨d, hd, hon, hm, hwell.fits_splitPath.1 (hwell.answers_iff.1 ha)⟩
    · rintro ⟨d, hd, hon, hm, ha⟩
      have hwell := (h.fine d hd).wellFormed
      exact .inr ⟨d.route, List.mem_map_of_mem hd, hm, hon,
        hwell.answers_iff.2 (hwell.fits_splitPath.2 ha)⟩
  have hmem : m ∈ rt.allowedForOn path on ↔
      m ∈ rt.routes.foldl (allow (splitPath (trimSlashes path)) on) [] ∨
      m = .head ∧ .get ∈ rt.routes.foldl (allow (splitPath (trimSlashes path)) on) [] := by
    simp only [allowedForOn]
    split_ifs with hget
    · simp [hget.1]
    · constructor
      · exact .inl
      · rintro (hm | ⟨rfl, hg⟩)
        · exact hm
        · by_contra hno
          exact hget ⟨hg, hno⟩
  rw [hmem, hfold, hfold]
  constructor
  · rintro (⟨d, hd, hon, hm, ha⟩ | ⟨hhead, d, hd, hon, hm, ha⟩)
    · exact ⟨d, hd, hon, .inl hm, ha⟩
    · exact ⟨d, hd, hon, .inr ⟨hhead, hm⟩, ha⟩
  · rintro ⟨d, hd, hon, hm | ⟨hhead, hm⟩, ha⟩
    · exact .inl ⟨d, hd, hon, hm, ha⟩
    · exact .inr ⟨hhead, d, hd, hon, hm, ha⟩

/-- On one listener they are those of its own routes. -/
theorem Holds.mem_allowedForOn_here (h : rt.Holds decls) :
    m ∈ rt.allowedForOn path (some listener) ↔
      ∃ d ∈ here decls listener, d.Serves m ∧ d.route.Answers (segmentsIn path) := by
  rw [h.mem_allowedForOn]
  constructor
  · rintro ⟨d, hd, hon, hrest⟩
    exact ⟨d, mem_here.2 ⟨hd, hon⟩, hrest⟩
  · rintro ⟨d, hd, hrest⟩
    exact ⟨d, (mem_here.1 hd).1, (mem_here.1 hd).2, hrest⟩

/-- **The router finds a match for a method exactly when it names that method for the path**, and
it names `HEAD` wherever it names `GET`. -/
theorem match_iff_allowed (h : register decls = .ok rt) (m : Method) (path : Bytes) :
    ((rt.matchInto m path).isSome = true ↔ m ∈ rt.allowedFor path) ∧
      (.get ∈ rt.allowedFor path → .head ∈ rt.allowedFor path) := by
  have hholds := register_holds h
  have hmem {m : Method} : m ∈ rt.allowedFor path ↔
      ∃ d ∈ decls, d.Serves m ∧ d.route.Answers (segmentsIn path) := by
    rw [allowedFor, hholds.mem_allowedForOn]
    exact exists_congr fun d => and_congr_right fun _ => and_iff_right rfl
  have hmatch := hholds.matchInto m path
  rw [hmem, hmem, hmem]
  constructor
  · cases hx : rt.matchInto m path with
    | none =>
      rw [hx] at hmatch
      refine iff_of_false Bool.false_ne_true ?_
      rintro ⟨d, hd, hserves, ha⟩
      exact hmatch d hd hserves ha
    | some x =>
      rw [hx] at hmatch
      obtain ⟨d, -, hchosen, -⟩ := hmatch
      exact iff_of_true rfl ⟨d, hchosen.mem, hchosen.serves, hchosen.answers⟩
  · rintro ⟨d, hd, hget | ⟨hno, -⟩, ha⟩
    · exact ⟨d, hd, .inr ⟨rfl, hget⟩, ha⟩
    · cases hno

theorem match_iff_allowed_files : ∃ rt, register files = .ok rt ∧
    ((rt.matchInto .head (Text.ascii "/files/a")).isSome = true ↔
      .head ∈ rt.allowedFor (Text.ascii "/files/a")) :=
  ⟨_, rfl, (match_iff_allowed (rfl : register files = .ok _) .head (Text.ascii "/files/a")).1⟩

end Router

/-! ## The answer -/

variable {findStatic : Method → Bytes → Option φ}

/-- The request comes to a route, with its parameters. -/
def ComesTo (decls : List (Declared α)) (t : Terminal α φ) (path : Bytes) (d : Declared α) : Prop :=
  ∃ x, t = .handler x ∧ decls[x.index]? = some d ∧ x.handler = d.handler ∧
    x.params = d.route.params (segmentsIn path)

/-- The check of the listener, on what was matched. -/
theorem filter_bound (h : rt.Holds decls) {x : Match α} (hidx : decls[x.index]? = some d) :
    (some x).filter (fun found =>
      rt.routes[found.index]?.any fun route => onListener route.listeners listener) =
    if onListener d.listeners listener then some x else none := by
  have hroute : rt.routes[x.index]? = some d.route := by
    rw [h.routes, List.getElem?_map, hidx]
    rfl
  rw [Option.filter_some, hroute]
  rfl

/-- A request comes to the route it is for, when that one is bound to the listener. -/
theorem dispatch_comesTo (h : rt.Holds decls) (hpath : path.head? = some slash)
    (hd : Chosen decls m path d) (hon : onListener d.listeners listener = true) :
    ComesTo decls (dispatch rt findStatic m path listener) path d := by
  have hm := h.matchInto m path
  cases hx : rt.matchInto m path with
  | none =>
    rw [hx] at hm
    exact absurd hd.answers (hm d hd.mem hd.serves)
  | some x =>
    rw [hx] at hm
    obtain ⟨d', hidx, hchosen, hhandler, hparams⟩ := hm
    obtain rfl := hchosen.unique hd
    refine ⟨x, ?_, hidx, hhandler, hparams⟩
    simp only [dispatch, hpath, if_true, hx, filter_bound h hidx, hon]

/-- And to no route at all when it is not. -/
theorem dispatch_ne_handler (h : rt.Holds decls) (hd : Chosen decls m path d)
    (hoff : onListener d.listeners listener = false) (x : Match α) :
    dispatch rt findStatic m path listener ≠ .handler x := by
  have hnone : (rt.matchInto m path).filter (fun found =>
      rt.routes[found.index]?.any fun route => onListener route.listeners listener) = none := by
    have hm := h.matchInto m path
    cases hx : rt.matchInto m path with
    | none => rfl
    | some x =>
      rw [hx] at hm
      obtain ⟨d', hidx, hchosen, -⟩ := hm
      obtain rfl := hchosen.unique hd
      rw [filter_bound h hidx, hoff]
      rfl
  simp only [dispatch, hnone, ite_self, methodNotAllowedHandler]
  split
  · intro heq
    cases heq
  · split_ifs <;> intro heq <;> cases heq

/-- A 405 is the answer to a path, and names the methods of the listener's routes. -/
theorem allowed_of_dispatch {allowed : List Method}
    (h : dispatch rt findStatic m path listener = .methodNotAllowed allowed) :
    path.head? = some slash ∧ allowed = allowList (rt.allowedForOn path (some listener)) := by
  unfold dispatch at h
  by_cases hpath : path.head? = some slash
  · simp only [hpath, if_true] at h
    split at h
    · cases h
    · split at h
      · cases h
      · split_ifs at h with hsome
        unfold methodNotAllowedHandler at h
        split_ifs at h
        cases h
        exact ⟨hpath, rfl⟩
  · simp only [hpath, if_false, ne_eq, not_true_eq_false] at h
    split_ifs at h

/-- Some route is the one a request is for, when any answers it. -/
theorem exists_chosen (h : rt.Holds decls)
    (hany : ∃ d ∈ decls, d.Serves m ∧ d.route.Answers (segmentsIn path)) :
    ∃ d, Chosen decls m path d := by
  obtain ⟨d, hd, hserves, ha⟩ := hany
  have hm := h.matchInto m path
  cases hx : rt.matchInto m path with
  | none =>
    rw [hx] at hm
    exact absurd ha (hm d hd hserves)
  | some x =>
    rw [hx] at hm
    obtain ⟨d', -, hchosen, -⟩ := hm
    exact ⟨d', hchosen⟩

/-- What a 405 promises on a listener: it does not name the method it refuses, and a request
some route of the listener answers comes to the most specific of them. -/
def Truthful (decls : List (Declared α)) (rt : Router α) (findStatic : Method → Bytes → Option φ)
    (m : Method) (path : Bytes) (listener : Nat) : Prop :=
  (∀ allowed, dispatch rt findStatic m path listener = .methodNotAllowed allowed → m ∉ allowed) ∧
  (path.head? = some slash →
    (∃ d ∈ here decls listener, d.Serves m ∧ d.route.Answers (segmentsIn path)) →
    ∃ d, Chosen (here decls listener) m path d ∧
      ComesTo decls (dispatch rt findStatic m path listener) path d)

/-- Some route of the listener answers the request, and one bound elsewhere is the most
specific of all that do. -/
def Shadowed (decls : List (Declared α)) (m : Method) (path : Bytes) (listener : Nat) : Prop :=
  path.head? = some slash ∧
    (∃ d ∈ here decls listener, d.Serves m ∧ d.route.Answers (segmentsIn path)) ∧
    ∃ d, Chosen decls m path d ∧ onListener d.listeners listener = false

/-- The answer is what it promises exactly when the request is not shadowed. -/
theorem truthful_iff (h : Router.register decls = .ok rt) :
    Truthful decls rt findStatic m path listener ↔ ¬ Shadowed decls m path listener := by
  have hholds := Router.register_holds h
  constructor
  · rintro ⟨-, hcomes⟩ ⟨hpath, hany, d, hd, hoff⟩
    obtain ⟨d', -, x, hx, -⟩ := hcomes hpath hany
    exact dispatch_ne_handler hholds hd hoff x hx
  · intro hno
    have hcomes : path.head? = some slash →
        (∃ d ∈ here decls listener, d.Serves m ∧ d.route.Answers (segmentsIn path)) →
        ∃ d, Chosen (here decls listener) m path d ∧
          ComesTo decls (dispatch rt findStatic m path listener) path d := by
      intro hpath hany
      obtain ⟨e, he, hserves, ha⟩ := hany
      obtain ⟨d, hd⟩ := exists_chosen hholds ⟨e, (mem_here.1 he).1, hserves, ha⟩
      have hon : onListener d.listeners listener = true := by
        by_contra hoff
        exact hno ⟨hpath, ⟨e, he, hserves, ha⟩, d, hd, by simpa using hoff⟩
      exact ⟨d, hd.here hon, dispatch_comesTo hholds hpath hd hon⟩
    refine ⟨?_, hcomes⟩
    intro allowed hrefused hm
    obtain ⟨hpath, rfl⟩ := allowed_of_dispatch hrefused
    have hany := hholds.mem_allowedForOn_here.1 (List.mem_filter.1 hm).1
    obtain ⟨d, -, x, hx, -⟩ := hcomes hpath hany
    rw [hrefused] at hx
    cases hx

/-- A literal bound to the first listener, beside a parameter bound to none. -/
def users : List (Declared Nat) :=
  [⟨.get, 1, Text.ascii "/users/me", 0⟩, ⟨.get, everyListener, Text.ascii "/users/:id", 1⟩]

/-- On the first listener `/users/me` is answered as promised. -/
theorem truthful_users : ∃ rt, Router.register users = .ok rt ∧
    Truthful users rt (fun _ _ => (none : Option Unit)) .get (Text.ascii "/users/me") 0 := by
  refine ⟨_, rfl, (truthful_iff rfl).2 ?_⟩
  rintro ⟨-, -, d, hd, hoff⟩
  have hon : ∀ d ∈ users, onListener d.listeners 0 = true := by
    simp [users, onListener, everyListener]
  rw [hon d hd.mem] at hoff
  cases hoff

/-- On the second it is a 405 that names `GET`, though `/users/:id` answers it there. -/
theorem not_truthful_users : ∃ rt, Router.register users = .ok rt ∧
    dispatch rt (fun _ _ => (none : Option Unit)) .get (Text.ascii "/users/me") 1 =
      .methodNotAllowed [.get, .head] ∧
    ¬ Truthful users rt (fun _ _ => (none : Option Unit)) .get (Text.ascii "/users/me") 1 := by
  refine ⟨_, rfl, rfl, ?_⟩
  intro htrue
  exact htrue.1 [.get, .head] rfl (by decide)

end Nilo.Routing
