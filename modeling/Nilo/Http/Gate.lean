import Nilo.Lib.Linked
import Nilo.Lib.Slots

/-!
# A lock that lets so many through at once (`Gate` in `http/bulkhead.zig`)

The state is the Gate and the calls to `enter` and `enterWithin`, numbered as they are made. A call
that waits has its node on its own stack, so a pointer to a node is the number of the call. A step
is what a caller does between taking the Gate's lock and letting it go; the condition may give a
waiting call the lock back at any time, for a signal, for none, because its limit ran out or
because it was cancelled. `arrivals` and `grants` are a record for the theorems to speak of, which
nothing reads: the calls that came to the Gate, and the calls a turn was given to, in order.
-/

namespace Nilo.Bulkhead

open Linked

/-! ## The Gate and its callers -/

/-- `Waiter`: the condition it is woken by is left to the steps. -/
structure Waiter where
  next : Option Nat
  granted : Bool
deriving DecidableEq, Repr

inductive Failure where
  | canceled
  | timedOut
deriving DecidableEq, Repr

/-- Where a call is. The limit is in milliseconds, and `enter` has none. -/
inductive Phase where
  /-- At the Gate's lock. -/
  | asking (limit : Option Nat)
  /-- In the loop of `wait`, from `started` on. -/
  | waiting (limit : Option Nat) (started : Nat) (me : Waiter)
  /-- Returned, with a turn. -/
  | turn
  | failed (error : Failure)
  /-- The turn was given back. -/
  | left
deriving DecidableEq, Repr

/-- The node a call has on its stack while it waits. -/
def Phase.node : Phase → Option Waiter
  | .waiting _ _ me => some me
  | _ => none

structure Gate where
  /-- `_free` -/
  free : Nat
  /-- `_head` -/
  head : Option Nat
  /-- `_tail` -/
  tail : Option Nat
  /-- `_waiting` -/
  waiting : Nat
  calls : List Phase
  /-- `engine.monotonicNanos()` -/
  now : Nat
  arrivals : List Nat
  grants : List Nat
deriving DecidableEq, Repr

/-- `Gate.open` -/
def init (atOnce : Nat) : Gate where
  free := max 1 atOnce
  head := none
  tail := none
  waiting := 0
  calls := []
  now := 0
  arrivals := []
  grants := []

namespace Gate

/-- The node of a call that waits. -/
def node (s : Gate) (c : Nat) : Option Waiter := (s.calls[c]?).bind Phase.node

def next (s : Gate) (c : Nat) : Option Nat := (s.node c).bind Waiter.next

def granted (s : Gate) (c : Nat) : Bool := (s.node c).any Waiter.granted

def put (s : Gate) (c : Nat) (p : Phase) : Gate := { s with calls := s.calls.set c p }

/-- A write to the node of a call. -/
def edit (s : Gate) (c : Nat) (f : Waiter → Waiter) : Gate :=
  match s.calls[c]? with
  | some (.waiting limit started me) => s.put c (.waiting limit started (f me))
  | _ => s

/-- A turn nobody holds goes to the head of the line, or back to the Gate. -/
def handOn (s : Gate) : Gate :=
  match s.head with
  | none => { s with free := s.free + 1 }
  | some w =>
    let head := s.next w
    { s with
      head := head
      tail := if head.isNone then none else s.tail
      waiting := s.waiting - 1
      grants := s.grants ++ [w] }.edit w fun me => { me with granted := true }

/-- `unlink`: the walk goes no further than the line is long, which it never would. -/
def unlink (s : Gate) (w : Nat) : Gate :=
  match before s.next w s.waiting none s.head with
  | none => s
  | some prev =>
    let after := s.next w
    let s :=
      match prev with
      | some p => s.edit p fun node => { node with next := after }
      | none => { s with head := after }
    { s with
      tail := if s.tail = some w then prev else s.tail
      waiting := s.waiting - 1 }

/-- What a wait that ended in an error comes to. -/
def settle (s : Gate) (c : Nat) (error : Failure) : Gate :=
  if s.granted c then
    match error with
    | .timedOut => s.put c .turn
    | .canceled => (s.put c (.failed .canceled)).handOn
  else (s.unlink c).put c (.failed error)

/-- `ms` have gone by since `started`. -/
def spent (s : Gate) (limit : Option Nat) (started : Nat) : Bool :=
  match limit with
  | some ms => decide (ms ≤ (s.now - started) / 1000000)
  | none => false

/-- The loop of `wait`, up to the next time it parks. -/
def round (s : Gate) (c : Nat) (limit : Option Nat) (started : Nat) : Gate :=
  if s.granted c then s.put c .turn
  else if s.spent limit started then s.settle c .timedOut
  else s

/-- `var me: Waiter = .{}` -/
def begun (s : Gate) (c : Nat) (limit : Option Nat) : Gate :=
  { s with arrivals := s.arrivals ++ [c] }.put c (.waiting limit s.now ⟨none, false⟩)

/-- A node at the end of the line. -/
def link (s : Gate) (c : Nat) (limit : Option Nat) : Gate :=
  let s := s.begun c limit
  let s :=
    match s.tail with
    | some t => s.edit t fun node => { node with next := some c }
    | none => { s with head := some c }
  { s with tail := some c, waiting := s.waiting + 1 }

/-- `wait`, from the lock on: by the time the clock is looked at again it has moved by `elapsed`. -/
def arrive (s : Gate) (c : Nat) (limit : Option Nat) (elapsed : Nat) : Gate :=
  if s.head = none ∧ 0 < s.free then
    { s with
      free := s.free - 1
      arrivals := s.arrivals ++ [c]
      grants := s.grants ++ [c] }.put c .turn
  else if limit = some 0 then s.put c (.failed .timedOut)
  else
    let joined := s.link c limit
    { joined with now := joined.now + elapsed }.round c limit s.now

end Gate

inductive Act where
  /-- `enter`, or `enterWithin`. -/
  | call (limit : Option Nat)
  /-- The lock was refused. -/
  | refused (c : Nat)
  /-- The lock was taken. -/
  | locked (c : Nat) (elapsed : Nat)
  /-- A signal, or a spurious wake. -/
  | woken (c : Nat)
  /-- The condition's own error. -/
  | broken (c : Nat) (error : Failure)
  /-- `leave`, for the turn of a call. -/
  | leave (c : Nat)
  | tick (n : Nat)
deriving DecidableEq, Repr

/-- A step, where there is one to take. -/
def step (s : Gate) : Act → Option Gate
  | .call limit => some { s with calls := s.calls ++ [.asking limit] }
  | .refused c =>
    match s.calls[c]? with
    | some (.asking _) => some (s.put c (.failed .canceled))
    | _ => none
  | .locked c elapsed =>
    match s.calls[c]? with
    | some (.asking limit) => some (s.arrive c limit elapsed)
    | _ => none
  | .woken c =>
    match s.calls[c]? with
    | some (.waiting limit started _) => some (s.round c limit started)
    | _ => none
  | .broken c error =>
    match s.calls[c]? with
    | some (.waiting limit _ _) =>
      -- `wait` without a limit is a wait that only a cancellation ends.
      if error = .timedOut ∧ limit = none then none else some (s.settle c error)
    | _ => none
  | .leave c =>
    match s.calls[c]? with
    | some .turn => some (s.put c .left).handOn
    | _ => none
  | .tick n => some { s with now := s.now + n }

def run (s : Gate) : List Act → Option Gate
  | [] => some s
  | a :: acts => (step s a).bind fun s => run s acts

/-! ## Counting turns -/

def Phase.isTurn : Phase → Bool
  | .turn => true
  | _ => false

/-- A turn was given to a call that has not returned yet. -/
def Phase.isGiven : Phase → Bool
  | .waiting _ _ me => me.granted
  | _ => false

def Phase.turns (p : Phase) : Nat := p.isTurn.toNat + p.isGiven.toNat

/-- A call that has, or had, a turn to return with. -/
def Phase.served : Phase → Bool
  | .turn | .left => true
  | .waiting _ _ me => me.granted
  | _ => false

namespace Gate

variable {s : Gate} {c b : Nat} {p n : Phase} {f : Waiter → Waiter}

def held (s : Gate) : Nat := s.calls.countP Phase.isTurn

def given (s : Gate) : Nat := s.calls.countP Phase.isGiven

theorem countP_put (q : Phase → Bool) (h : s.calls[c]? = some p) :
    (s.put c n).calls.countP q + (q p).toNat = s.calls.countP q + (q n).toNat := by
  obtain ⟨hlt, rfl⟩ := List.getElem?_eq_some_iff.mp h
  have hpos : (q s.calls[c]).toNat ≤ s.calls.countP q := by
    cases hq : q s.calls[c] with
    | false => exact Nat.zero_le _
    | true => exact List.countP_pos_iff.mpr ⟨_, List.getElem_mem hlt, hq⟩
  have hone : ∀ b : Bool, b.toNat = if b = true then 1 else 0 := by decide
  rw [put, List.countP_set hlt]
  simp only [hone] at hpos ⊢
  omega

/-- A call moves on: what turns it had are what it has, but for the difference. -/
theorem turns_put (h : s.calls[c]? = some p) :
    (s.put c n).held + (s.put c n).given + p.turns = s.held + s.given + n.turns := by
  have hturn := countP_put Phase.isTurn (n := n) h
  have hgiven := countP_put Phase.isGiven (n := n) h
  simp only [held, given, Phase.turns]
  omega

theorem calls_put (c : Nat) (p : Phase) (x : Nat) (h : c < s.calls.length) :
    (s.put c p).calls[x]? = if x = c then some p else s.calls[x]? := by
  by_cases hx : x = c
  · subst hx
    rw [if_pos rfl, put, List.getElem?_set_self h]
  · rw [if_neg hx, put, List.getElem?_set_ne (Ne.symm hx)]

theorem node_put (h : s.calls[c]? = some p) (x : Nat) :
    (s.put c n).node x = if x = c then n.node else s.node x := by
  obtain ⟨hlt, _⟩ := List.getElem?_eq_some_iff.mp h
  rw [node, calls_put c n x hlt]
  by_cases hx : x = c
  · rw [if_pos hx, if_pos hx]
    rfl
  · rw [if_neg hx, if_neg hx]
    rfl

theorem node_eq_some {me : Waiter} :
    s.node c = some me ↔ ∃ limit started, s.calls[c]? = some (.waiting limit started me) := by
  rw [node, Option.bind_eq_some_iff]
  constructor
  · rintro ⟨p, hp, hme⟩
    cases p with
    | waiting limit started me' =>
      obtain rfl := Option.some.inj hme
      exact ⟨limit, started, hp⟩
    | _ => cases hme
  · rintro ⟨limit, started, hp⟩
    exact ⟨_, hp, rfl⟩

/-- A write to a node is a write to the phase that has it. -/
theorem edit_eq {limit : Option Nat} {started : Nat} {me : Waiter}
    (h : s.calls[c]? = some (.waiting limit started me)) :
    s.edit c f = s.put c (.waiting limit started (f me)) := by
  rw [edit, h]

end Gate

/-! ## The line -/

/-- What the record says of the calls. -/
structure Records (calls : List Phase) (arrivals grants : List Nat) : Prop where
  nodup : arrivals.Nodup
  arrived : ∀ c ∈ arrivals, ∃ p, calls[c]? = some p ∧ ∀ limit, p ≠ .asking limit
  served : ∀ c p, calls[c]? = some p → p.served = true → c ∈ grants

theorem Records.put {s : Gate} {c : Nat} {p n : Phase} {arrivals grants : List Nat}
    (h : Records s.calls arrivals grants) (hc : s.calls[c]? = some p)
    (harrived : c ∈ arrivals → ∀ limit, n ≠ .asking limit)
    (hserved : n.served = true → c ∈ grants) : Records (s.put c n).calls arrivals grants := by
  obtain ⟨hlt, _⟩ := List.getElem?_eq_some_iff.mp hc
  refine ⟨h.nodup, fun x hx => ?_, fun x q hq hs => ?_⟩
  · rw [Gate.calls_put c n x hlt]
    by_cases hxc : x = c
    · subst hxc
      rw [if_pos rfl]
      exact ⟨n, rfl, harrived hx⟩
    · rw [if_neg hxc]
      exact h.arrived x hx
  · rw [Gate.calls_put c n x hlt] at hq
    by_cases hxc : x = c
    · subst hxc
      rw [if_pos rfl] at hq
      obtain rfl := Option.some.inj hq
      exact hserved hs
    · rw [if_neg hxc] at hq
      exact h.served x q hq hs

/-- One more grant. -/
theorem Records.grant {calls : List Phase} {arrivals grants : List Nat}
    (h : Records calls arrivals grants) (c : Nat) : Records calls arrivals (grants ++ [c]) :=
  ⟨h.nodup, h.arrived, fun x p hp hs => List.mem_append_left _ (h.served x p hp hs)⟩

/-- One more arrival. -/
theorem Records.arrive {calls : List Phase} {arrivals grants : List Nat} {c : Nat} {p : Phase}
    (h : Records calls arrivals grants) (hnew : c ∉ arrivals) (hp : calls[c]? = some p)
    (hasking : ∀ limit, p ≠ .asking limit) : Records calls (arrivals ++ [c]) grants where
  nodup := by
    rw [← List.concat_eq_append]
    exact h.nodup.concat hnew
  arrived x hx := by
    rcases List.mem_append.mp hx with hx | hx
    · exact h.arrived x hx
    · obtain rfl := List.mem_singleton.mp hx
      exact ⟨p, hp, hasking⟩
  served := h.served

/-- What holds of the Gate whenever its lock is free (`air` is nought), and inside a section while
a turn is in the hands of the one who gives it on. -/
structure Inv (total air : Nat) (s : Gate) (line : List Nat) : Prop where
  conserved : s.held + s.given + s.free + air = total
  vacant : 0 < s.free → line = []
  linked : Seg s.next s.head line none
  last : s.tail = line.getLast?
  count : s.waiting = line.length
  /-- The line is of the calls that wait and were given no turn. -/
  mem : ∀ c, c ∈ line ↔ ∃ me, s.node c = some me ∧ me.granted = false
  order : (s.grants ++ line).Sublist s.arrivals
  records : Records s.calls s.arrivals s.grants

namespace Inv

variable {total air air' : Nat} {s : Gate} {line : List Nat} {c : Nat} {p n : Phase}

theorem line_nodup (h : Inv total air s line) : line.Nodup :=
  ((List.sublist_append_right s.grants line).trans h.order).nodup h.records.nodup

theorem granted_iff {me : Waiter} (hme : s.node c = some me) : s.granted c = me.granted := by
  rw [Gate.granted, hme]
  rfl

theorem init (atOnce : Nat) : Inv (max 1 atOnce) 0 (init atOnce) [] where
  conserved := by simp [Gate.held, Gate.given, Bulkhead.init]
  vacant _ := rfl
  linked := rfl
  last := rfl
  count := rfl
  mem c := by simp [Gate.node, Bulkhead.init]
  order := List.Sublist.refl _
  records := ⟨List.nodup_nil, fun c hc => (by cases hc), fun c p hp _ => (by cases hp)⟩

/-- A call that is not in the line goes on to where it has no node. -/
theorem put (h : Inv total air s line) (hc : s.calls[c]? = some p) (hline : c ∉ line)
    (hnode : n.node = none) (hair : air' + n.turns = air + p.turns)
    (harrived : c ∈ s.arrivals → ∀ limit, n ≠ .asking limit)
    (hserved : n.served = true → c ∈ s.grants) : Inv total air' (s.put c n) line where
  conserved := by
    have hturns := Gate.turns_put (n := n) hc
    have hall := h.conserved
    change (s.put c n).held + (s.put c n).given + s.free + air' = total
    omega
  vacant := h.vacant
  linked := by
    refine h.linked.congr fun x hx => ?_
    have hne : x ≠ c := fun heq => hline (heq ▸ hx)
    rw [Gate.next, Gate.node_put hc, if_neg hne, Gate.next]
  last := h.last
  count := h.count
  mem x := by
    rw [h.mem x, Gate.node_put hc]
    by_cases hx : x = c
    · subst hx
      have hout := mt (h.mem x).mpr hline
      simp only [if_true, hnode]
      exact ⟨fun hin => absurd hin hout, fun ⟨_, hin, _⟩ => (by cases hin)⟩
    · rw [if_neg hx]
  order := h.order
  records := h.records.put hc harrived hserved

theorem mem_node (h : Inv total air s line) (hc : c ∈ line) :
    ∃ limit started next, s.calls[c]? = some (.waiting limit started ⟨next, false⟩) := by
  obtain ⟨⟨next, given⟩, hme, rfl⟩ := (h.mem c).mp hc
  obtain ⟨limit, started, hp⟩ := Gate.node_eq_some.mp hme
  exact ⟨limit, started, next, hp⟩

/-- A turn in hand goes to the first of the line, or to the Gate. -/
theorem handOn (h : Inv total 1 s line) : Inv total 0 s.handOn line.tail := by
  cases line with
  | nil =>
    have hhead : s.head = none := h.linked
    have hon : s.handOn = { s with free := s.free + 1 } := by rw [Gate.handOn, hhead]
    rw [hon]
    refine { h with conserved := ?_, vacant := fun _ => rfl }
    have hall := h.conserved
    change s.held + s.given + (s.free + 1) + 0 = total
    omega
  | cons w rest =>
    obtain ⟨limit, started, after, hw⟩ := h.mem_node List.mem_cons_self
    have hhead : s.head = some w := h.linked.1
    have hnext : s.next w = after := by
      rw [Gate.next, Gate.node_eq_some.mpr ⟨limit, started, hw⟩]
      rfl
    have hwrest : w ∉ rest := (List.nodup_cons.mp h.line_nodup).1
    have hrest : Linked.Seg s.next after rest none := by
      have htail := h.linked.tail
      rwa [hnext] at htail
    let s₁ : Gate :=
      { s with
        head := after
        tail := if after.isNone then none else s.tail
        waiting := s.waiting - 1
        grants := s.grants ++ [w] }
    have hon : s.handOn = s₁.put w (.waiting limit started ⟨after, true⟩) := by
      simp only [Gate.handOn, hhead, hnext]
      exact Gate.edit_eq (s := s₁) hw
    have hw₁ : s₁.calls[w]? = some (.waiting limit started ⟨after, false⟩) := hw
    have hnode := Gate.node_put (n := .waiting limit started ⟨after, true⟩) hw₁
    rw [hon]
    exact {
      conserved := by
        have hturns := Gate.turns_put (n := .waiting limit started ⟨after, true⟩) hw₁
        have hall := h.conserved
        simp only [Phase.turns, Phase.isTurn, Phase.isGiven, Bool.toNat_false, Bool.toNat_true] at hturns
        change _ + _ + s.free + 0 = total
        change _ = s.held + s.given + _ at hturns
        omega
      vacant := fun hfree => absurd (h.vacant hfree) (List.cons_ne_nil _ _)
      linked := by
        refine hrest.congr fun x hx => ?_
        have hne : x ≠ w := fun heq => hwrest (heq ▸ hx)
        rw [Gate.next, hnode, if_neg hne]
        rfl
      last := by
        change (if after.isNone then none else s.tail) = rest.getLast?
        rw [h.last]
        cases rest with
        | nil =>
          obtain rfl : after = none := hrest
          rfl
        | cons y rest =>
          obtain rfl : after = some y := hrest.1
          rw [List.getLast?_cons_cons]
          rfl
      count := by
        change s.waiting - 1 = rest.length
        rw [h.count]
        rfl
      mem := fun x => by
        rw [hnode]
        by_cases hx : x = w
        · subst hx
          rw [if_pos rfl]
          refine ⟨fun hin => absurd hin hwrest, ?_⟩
          rintro ⟨me, hme, hgranted⟩
          obtain rfl := Option.some.inj hme
          cases hgranted
        · rw [if_neg hx]
          have hold := h.mem x
          rw [List.mem_cons, or_iff_right hx] at hold
          exact hold
      order := by
        change ((s.grants ++ [w]) ++ rest).Sublist s.arrivals
        rw [List.append_assoc]
        exact h.order
      records := by
        refine (h.records.grant w).put hw₁ (fun _ _ => Phase.noConfusion) fun _ => ?_
        exact List.mem_append_right _ List.mem_cons_self }

end Inv

/-! ## Nodes put in and taken out -/

/-- `s'` is `s` with the next of one node, `b`'s, written over by `after`. -/
structure Relinked (s s' : Gate) (b : Option Nat) (after : Option Nat) : Prop where
  node : ∀ x, s'.node x =
    if b = some x then (s.node x).map fun me => { me with next := after } else s.node x
  turns : s'.held + s'.given = s.held + s.given
  other : ∀ x, b ≠ some x → s'.calls[x]? = s.calls[x]?
  records : ∀ arrivals grants, Records s.calls arrivals grants → Records s'.calls arrivals grants

theorem Relinked.none {s s' : Gate} (h : s'.calls = s.calls) {after : Option Nat} :
    Relinked s s' none after where
  node x := by rw [if_neg (by simp), Gate.node, Gate.node, h]
  turns := by rw [Gate.held, Gate.given, h, Gate.held, Gate.given]
  other x _ := by rw [h]
  records _ _ := by
    rw [h]
    exact id

theorem Relinked.some {s : Gate} {b : Nat} {limit after' : Option Nat} {started : Nat}
    (hb : s.calls[b]? = some (.waiting limit started ⟨after', false⟩)) (after : Option Nat) :
    Relinked s (s.edit b fun me => { me with next := after }) (some b) after where
  node x := by
    rw [Gate.edit_eq hb, Gate.node_put hb]
    by_cases hx : x = b
    · subst hx
      rw [if_pos rfl, if_pos rfl, Gate.node_eq_some.mpr ⟨limit, started, hb⟩]
      rfl
    · rw [if_neg hx, if_neg fun heq => hx (Option.some.inj heq).symm]
  turns := by
    rw [Gate.edit_eq hb]
    have hturns := Gate.turns_put (n := .waiting limit started ⟨after, false⟩) hb
    exact Nat.add_right_cancel hturns
  other x hx := by
    obtain ⟨hlt, _⟩ := List.getElem?_eq_some_iff.mp hb
    rw [Gate.edit_eq hb, Gate.calls_put b _ x hlt, if_neg fun heq => hx (congrArg Option.some heq.symm)]
  records arrivals grants h := by
    rw [Gate.edit_eq hb]
    exact h.put hb (fun _ _ => Phase.noConfusion) fun hs => (by cases hs)

namespace Inv

variable {total air : Nat} {s : Gate} {line : List Nat} {c : Nat}

theorem unlink_eq {l r : List Nat} (h : Inv total 0 s (l ++ c :: r)) :
    Relinked s (s.unlink c) l.getLast? (s.next c) ∧
      (s.unlink c).head = (if l = [] then s.next c else s.head) ∧
      (s.unlink c).tail = (if s.tail = some c then l.getLast? else s.tail) ∧
      (s.unlink c).waiting = s.waiting - 1 ∧ (s.unlink c).free = s.free ∧
      (s.unlink c).arrivals = s.arrivals ∧ (s.unlink c).grants = s.grants := by
  have hcl : c ∉ l := fun hmem =>
    List.disjoint_of_nodup_append h.line_nodup hmem List.mem_cons_self
  have hwalk : before s.next c s.waiting none s.head = some (l.getLast?.or none) := by
    refine before_eq h.linked hcl ?_
    rw [h.count, List.length_append, List.length_cons]
    omega
  rw [Option.or_none] at hwalk
  rcases List.eq_nil_or_concat l with rfl | ⟨l, b, rfl⟩
  · have hunlink : s.unlink c = { s with
        head := s.next c
        tail := if s.tail = some c then none else s.tail
        waiting := s.waiting - 1 } := by
      simp only [Gate.unlink, hwalk]
      rfl
    rw [hunlink]
    refine ⟨?_, rfl, rfl, rfl, rfl, rfl, rfl⟩
    change Relinked s _ none _
    exact Relinked.none (by rfl)
  · rw [List.concat_eq_append] at *
    rw [List.getLast?_concat] at hwalk ⊢
    obtain ⟨limit, started, after, hb⟩ := h.mem_node (c := b) (by simp)
    have hrelinked := Relinked.some hb (s.next c)
    have hunlink : s.unlink c = { s.edit b (fun me => { me with next := s.next c }) with
        tail := if s.tail = some c then some b else s.tail
        waiting := s.waiting - 1 } := by
      simp only [Gate.unlink, hwalk, Gate.edit_eq hb]
      rfl
    rw [hunlink]
    refine ⟨⟨hrelinked.node, hrelinked.turns, hrelinked.other, hrelinked.records⟩, ?_, rfl, rfl, ?_, ?_, ?_⟩
    all_goals rw [Gate.edit_eq hb]
    · change s.head = _
      rw [if_neg (by simp)]
    all_goals rfl

/-- The last of a line one was taken out of. -/
theorem getLast?_remove {l r : List Nat} (hr : c ∉ r) :
    (if (l ++ c :: r).getLast? = some c then l.getLast? else (l ++ c :: r).getLast?) =
      (l ++ r).getLast? := by
  rcases List.eq_nil_or_concat r with rfl | ⟨r, y, rfl⟩
  · simp
  · rw [List.concat_eq_append] at *
    have hne : y ≠ c := fun heq => hr (by simp [heq])
    have hlong : (l ++ c :: (r ++ [y])).getLast? = some y := by
      rw [← List.cons_append, ← List.append_assoc, List.getLast?_concat]
    rw [hlong, if_neg fun heq => hne (Option.some.inj heq), ← List.append_assoc, List.getLast?_concat]

/-- A call leaves the line from wherever it is in it, and returns with nothing. -/
theorem unlink (h : Inv total 0 s line) (hc : c ∈ line) (e : Failure) :
    Inv total 0 ((s.unlink c).put c (.failed e)) (line.erase c) := by
  obtain ⟨l, r, rfl⟩ := List.append_of_mem hc
  obtain ⟨hre, hhead, htail, hwaiting, hfree, harrivals, hgrants⟩ := h.unlink_eq
  obtain ⟨limit, started, after, hcall⟩ := h.mem_node hc
  have hnodup := h.line_nodup
  have hcl : c ∉ l := fun hmem => List.disjoint_of_nodup_append hnodup hmem List.mem_cons_self
  have hcr : c ∉ r := (List.nodup_cons.mp (List.nodup_append'.mp hnodup).2.1).1
  have herase : (l ++ c :: r).erase c = l ++ r := by
    rw [List.erase_append_right _ hcl, List.erase_cons_head]
  have hbefore : l.getLast? ≠ some c := fun hlast => hcl (List.mem_of_getLast? hlast)
  have hcall' : (s.unlink c).calls[c]? = some (.waiting limit started ⟨after, false⟩) := by
    rw [hre.other c hbefore, hcall]
  have hnode (x : Nat) : ((s.unlink c).put c (.failed e)).node x =
      if x = c then none else (s.unlink c).node x :=
    Gate.node_put hcall' x
  rw [herase]
  exact {
    conserved := by
      have hturns := Gate.turns_put (n := .failed e) hcall'
      have hall := h.conserved
      have hsame := hre.turns
      simp only [Phase.turns, Phase.isTurn, Phase.isGiven, Bool.toNat_false] at hturns
      change _ + _ + (s.unlink c).free + 0 = total
      omega
    vacant := fun hpos => absurd (h.vacant (hfree ▸ hpos)) (by simp)
    linked := by
      change Seg _ (s.unlink c).head _ _
      have hother (x : Nat) (hx : x ∈ l ++ r) :
          ((s.unlink c).put c (.failed e)).next x = (s.unlink c).next x := by
        have hne : x ≠ c := by
          rintro rfl
          rcases List.mem_append.mp hx with hx | hx
          · exact hcl hx
          · exact hcr hx
        rw [Gate.next, hnode, if_neg hne, Gate.next]
      have hremoved : Seg (s.unlink c).next (s.unlink c).head (l ++ r) none := by
        refine h.linked.remove hnodup hhead (fun b hb => ?_) fun x hx hlast => ?_
        · obtain ⟨limitb, startedb, nextb, hbcall⟩ :=
            h.mem_node (c := b) (List.mem_append_left _ (List.mem_of_getLast? hb))
          rw [Gate.next, hre.node, if_pos hb, Gate.node_eq_some.mpr ⟨_, _, hbcall⟩]
          rfl
        · rw [Gate.next, hre.node, if_neg hlast, Gate.next]
      exact hremoved.congr hother
    last := by
      change (s.unlink c).tail = _
      rw [htail, h.last]
      exact getLast?_remove hcr
    count := by
      change (s.unlink c).waiting = _
      rw [hwaiting, h.count, List.length_append, List.length_cons, List.length_append]
      omega
    mem := fun x => by
      rw [hnode]
      by_cases hx : x = c
      · subst hx
        rw [if_pos rfl]
        refine ⟨fun hin => ?_, fun ⟨_, hin, _⟩ => (by cases hin)⟩
        rcases List.mem_append.mp hin with hin | hin
        · exact absurd hin hcl
        · exact absurd hin hcr
      · have hold := h.mem x
        rw [List.mem_append, List.mem_cons, or_iff_right (a := x = c) hx, ← List.mem_append] at hold
        rw [if_neg hx, hold, hre.node]
        by_cases hlast : l.getLast? = some x
        · rw [if_pos hlast]
          cases s.node x with
          | none => simp
          | some me => simp
        · rw [if_neg hlast]
    order := by
      change ((s.unlink c).grants ++ (l ++ r)).Sublist (s.unlink c).arrivals
      rw [hgrants, harrivals]
      refine List.Sublist.trans ?_ h.order
      exact (List.Sublist.refl s.grants).append
        ((List.Sublist.refl l).append (List.sublist_cons_self c r))
    records := by
      refine Records.put ?_ hcall' (fun _ _ => Phase.noConfusion) fun hs => (by cases hs)
      change Records _ (s.unlink c).arrivals (s.unlink c).grants
      rw [harrivals, hgrants]
      exact hre.records _ _ h.records }

/-- What a call joining the line changes. -/
theorem link_eq {limit : Option Nat} (h : Inv total 0 s line)
    (hc : s.calls[c]? = some (.asking limit)) :
    Relinked (s.begun c limit) (s.link c limit) line.getLast? (some c) ∧
      (s.link c limit).head = (if line = [] then some c else s.head) ∧
      (s.link c limit).tail = some c ∧ (s.link c limit).waiting = s.waiting + 1 ∧
      (s.link c limit).free = s.free ∧ (s.link c limit).arrivals = s.arrivals ++ [c] ∧
      (s.link c limit).grants = s.grants := by
  have hbegun : (s.begun c limit).tail = s.tail := rfl
  rcases List.eq_nil_or_concat line with rfl | ⟨l, t, rfl⟩
  · have htail : s.tail = none := h.last
    have hlink : s.link c limit =
        { s.begun c limit with head := some c, tail := some c, waiting := s.waiting + 1 } := by
      simp only [Gate.link, hbegun, htail]
      rfl
    rw [hlink]
    refine ⟨?_, rfl, rfl, rfl, rfl, rfl, rfl⟩
    change Relinked (s.begun c limit) _ none _
    exact Relinked.none (by rfl)
  · rw [List.concat_eq_append] at *
    have htail : s.tail = some t := by rw [h.last, List.getLast?_concat]
    obtain ⟨limitt, started, after, ht⟩ := h.mem_node (c := t) (by simp)
    have htc : t ≠ c := by
      rintro rfl
      rw [hc] at ht
      cases ht
    have hfresh : (s.begun c limit).calls[t]? = some (.waiting limitt started ⟨after, false⟩) := by
      obtain ⟨hlt, _⟩ := List.getElem?_eq_some_iff.mp hc
      refine (Gate.calls_put (s := { s with arrivals := s.arrivals ++ [c] }) c _ t hlt).trans ?_
      rw [if_neg htc]
      exact ht
    have hrelinked := Relinked.some hfresh (some c)
    have hlink : s.link c limit = { (s.begun c limit).edit t (fun me => { me with next := some c }) with
        tail := some c
        waiting := s.waiting + 1 } := by
      simp only [Gate.link, hbegun, htail, Gate.edit_eq hfresh]
      rfl
    rw [hlink, List.getLast?_concat]
    refine ⟨⟨hrelinked.node, hrelinked.turns, hrelinked.other, hrelinked.records⟩, ?_, rfl, rfl, ?_, ?_, ?_⟩
    all_goals rw [Gate.edit_eq hfresh]
    · change s.head = _
      rw [if_neg (by simp)]
    all_goals rfl

theorem not_mem {p : Phase} (h : Inv total air s line) (hc : s.calls[c]? = some p)
    (hp : ∀ limit started me, p ≠ .waiting limit started me) : c ∉ line := by
  intro hmem
  obtain ⟨limit, started, next, hcall⟩ := h.mem_node hmem
  rw [hc] at hcall
  exact hp _ _ _ (Option.some.inj hcall)

theorem not_arrived {limit : Option Nat} (h : Inv total air s line)
    (hc : s.calls[c]? = some (.asking limit)) : c ∉ s.arrivals := by
  intro hmem
  obtain ⟨p, hp, hasking⟩ := h.records.arrived c hmem
  rw [hc] at hp
  exact hasking limit (Option.some.inj hp).symm

/-- The call that joined the line is in its loop. -/
theorem link_self {limit : Option Nat} (h : Inv total 0 s line)
    (hc : s.calls[c]? = some (.asking limit)) :
    (s.link c limit).calls[c]? = some (.waiting limit s.now ⟨none, false⟩) := by
  have hlast : line.getLast? ≠ some c := fun hlast =>
    h.not_mem hc (fun _ _ _ => Phase.noConfusion) (List.mem_of_getLast? hlast)
  obtain ⟨hlt, _⟩ := List.getElem?_eq_some_iff.mp hc
  rw [(h.link_eq hc).1.other c hlast]
  refine (Gate.calls_put (s := { s with arrivals := s.arrivals ++ [c] }) c _ c hlt).trans ?_
  rw [if_pos rfl]

/-- A new node at the end. -/
theorem link {limit : Option Nat} (h : Inv total 0 s line) (hc : s.calls[c]? = some (.asking limit))
    (hbusy : s.head ≠ none ∨ s.free = 0) : Inv total 0 (s.link c limit) (line ++ [c]) := by
  obtain ⟨hre, hhead, htail, hwaiting, hfree, harrivals, hgrants⟩ := h.link_eq hc
  let s₁ : Gate := { s with arrivals := s.arrivals ++ [c] }
  have hc₁ : s₁.calls[c]? = some (.asking limit) := hc
  have hnone : s.node c = none := by
    rw [Gate.node, hc]
    rfl
  have hcline : c ∉ line := h.not_mem hc fun _ _ _ => Phase.noConfusion
  have hlast : line.getLast? ≠ some c := fun hlast => hcline (List.mem_of_getLast? hlast)
  have hnode (x : Nat) : (s.link c limit).node x =
      if line.getLast? = some x then (s.node x).map fun me => { me with next := some c }
      else if x = c then some ⟨none, false⟩ else s.node x := by
    rw [hre.node]
    by_cases hx : line.getLast? = some x
    · have hxc : x ≠ c := fun heq => hlast (heq ▸ hx)
      rw [if_pos hx, if_pos hx]
      refine congrArg _ ((Gate.node_put hc₁ x).trans ?_)
      rw [if_neg hxc]
      rfl
    · rw [if_neg hx, if_neg hx]
      exact Gate.node_put hc₁ x
  exact {
    conserved := by
      have hturns := Gate.turns_put (n := .waiting limit s.now ⟨none, false⟩) hc₁
      have hall := h.conserved
      have hsame : _ = (s₁.put c _).held + (s₁.put c _).given := hre.turns
      simp only [Phase.turns, Phase.isTurn, Phase.isGiven, Bool.toNat_false] at hturns
      change _ = s.held + s.given + _ at hturns
      change _ + _ + (s.link c limit).free + 0 = total
      omega
    vacant := fun hpos => by
      rcases hbusy with hbusy | hbusy
      · have hnil := h.vacant (hfree ▸ hpos)
        exact absurd ((h.linked.nil_iff).mpr hnil) hbusy
      · omega
    linked := by
      refine h.linked.push h.line_nodup hhead (fun t ht => ?_) (fun x hx hxlast => ?_) ?_
      · obtain ⟨_, _, _, hcall⟩ := h.mem_node (List.mem_of_getLast? ht)
        rw [Gate.next, hnode, if_pos ht, Gate.node_eq_some.mpr ⟨_, _, hcall⟩]
        rfl
      · have hxc : x ≠ c := fun heq => hcline (heq ▸ hx)
        rw [Gate.next, hnode, if_neg hxlast, if_neg hxc, Gate.next]
      · rw [Gate.next, hnode, if_neg hlast, if_pos rfl]
        rfl
    last := by
      rw [htail, List.getLast?_concat]
    count := by
      rw [hwaiting, h.count, List.length_append, List.length_singleton]
    mem := fun x => by
      rw [List.mem_append, List.mem_singleton, hnode]
      by_cases hx : line.getLast? = some x
      · rw [if_pos hx]
        have hmem := List.mem_of_getLast? hx
        obtain ⟨me, hme, hgranted⟩ := (h.mem x).mp hmem
        rw [hme]
        exact ⟨fun _ => ⟨_, rfl, hgranted⟩, fun _ => .inl hmem⟩
      · rw [if_neg hx]
        by_cases hxc : x = c
        · rw [if_pos hxc]
          exact ⟨fun _ => ⟨_, rfl, rfl⟩, fun _ => .inr hxc⟩
        · rw [if_neg hxc, or_iff_left hxc]
          exact h.mem x
    order := by
      rw [hgrants, harrivals, ← List.append_assoc]
      exact h.order.append (List.Sublist.refl [c])
    records := by
      rw [harrivals, hgrants]
      have hmore : Records (s.begun c limit).calls s.arrivals s.grants :=
        Records.put (s := s₁) h.records hc₁ (fun _ _ => Phase.noConfusion) fun hs => (by cases hs)
      exact (hre.records _ _ hmore).arrive (h.not_arrived hc) (h.link_self hc) fun _ =>
        Phase.noConfusion }

end Inv

/-! ## Steps -/

/-- There is a line that the Gate's list is of. -/
def Sound (total : Nat) (s : Gate) : Prop := ∃ line, Inv total 0 s line

namespace Sound

variable {total : Nat} {s : Gate} {c : Nat} {limit : Option Nat} {started : Nat} {me : Waiter}

/-- A call with a turn given to it returns with the turn. -/
theorem returned (h : Sound total s) (hc : s.calls[c]? = some (.waiting limit started me))
    (hgiven : me.granted = true) : Sound total (s.put c .turn) := by
  obtain ⟨line, h⟩ := h
  refine ⟨line, h.put hc ?_ rfl ?_ (fun _ _ => Phase.noConfusion) fun _ => ?_⟩
  · intro hmem
    obtain ⟨me', hme', hfalse⟩ := (h.mem c).mp hmem
    rw [Gate.node_eq_some.mpr ⟨limit, started, hc⟩] at hme'
    obtain rfl := Option.some.inj hme'
    rw [hgiven] at hfalse
    cases hfalse
  · simp [Phase.turns, Phase.isTurn, Phase.isGiven, hgiven]
  · exact h.records.served c _ hc hgiven

theorem settle (h : Sound total s) (hc : s.calls[c]? = some (.waiting limit started me))
    (e : Failure) : Sound total (s.settle c e) := by
  have hnode : s.node c = some me := Gate.node_eq_some.mpr ⟨limit, started, hc⟩
  have hgranted : s.granted c = me.granted := Inv.granted_iff hnode
  unfold Gate.settle
  rw [hgranted]
  cases hgiven : me.granted with
  | true =>
    cases e with
    | timedOut => exact h.returned hc hgiven
    | canceled =>
      -- The turn came as the call was cancelled: it is nobody's, and is handed on.
      obtain ⟨line, h⟩ := h
      have hline : c ∉ line := by
        intro hmem
        obtain ⟨me', hme', hfalse⟩ := (h.mem c).mp hmem
        rw [hnode] at hme'
        obtain rfl := Option.some.inj hme'
        rw [hgiven] at hfalse
        cases hfalse
      have hair : Inv total 1 (s.put c (.failed .canceled)) line := by
        refine h.put hc hline rfl ?_ (fun _ _ => Phase.noConfusion) fun hs => (by cases hs)
        simp [Phase.turns, Phase.isTurn, Phase.isGiven, hgiven]
      exact ⟨line.tail, hair.handOn⟩
  | false =>
    obtain ⟨line, h⟩ := h
    exact ⟨line.erase c, h.unlink ((h.mem c).mpr ⟨me, hnode, hgiven⟩) e⟩

theorem round (h : Sound total s) (hc : s.calls[c]? = some (.waiting limit started me)) :
    Sound total (s.round c limit started) := by
  have hgranted : s.granted c = me.granted :=
    Inv.granted_iff (Gate.node_eq_some.mpr ⟨limit, started, hc⟩)
  rw [Gate.round, hgranted]
  cases hgiven : me.granted with
  | true => exact h.returned hc hgiven
  | false =>
    by_cases hspent : s.spent limit started = true
    · rw [if_pos hspent]
      exact h.settle hc .timedOut
    · rw [if_neg hspent]
      exact h

/-- The clock is not the Gate's. -/
theorem tick (h : Sound total s) (n : Nat) : Sound total { s with now := s.now + n } := by
  obtain ⟨line, h⟩ := h
  exact ⟨line, { h with }⟩

theorem arrive (h : Sound total s) (hc : s.calls[c]? = some (.asking limit)) (elapsed : Nat) :
    Sound total (s.arrive c limit elapsed) := by
  obtain ⟨line, h⟩ := h
  have hcline := h.not_mem hc fun _ _ _ => Phase.noConfusion
  rw [Gate.arrive]
  by_cases hfree : s.head = none ∧ 0 < s.free
  · rw [if_pos hfree]
    obtain rfl := h.linked.nil_iff.mp hfree.1
    let s₁ : Gate :=
      { s with
        free := s.free - 1
        arrivals := s.arrivals ++ [c]
        grants := s.grants ++ [c] }
    have hc₁ : s₁.calls[c]? = some (.asking limit) := hc
    obtain ⟨hlt, _⟩ := List.getElem?_eq_some_iff.mp hc
    have hself : (s₁.put c .turn).calls[c]? = some .turn := by
      rw [Gate.calls_put (s := s₁) c _ c hlt, if_pos rfl]
    refine ⟨[], ?_, fun _ => rfl, hfree.1, h.last, h.count, fun x => ?_, ?_, ?_⟩
    · have hturns := Gate.turns_put (n := .turn) hc₁
      have hall := h.conserved
      simp only [Phase.turns, Phase.isTurn, Phase.isGiven, Bool.toNat_false, Bool.toNat_true] at hturns
      change _ = s.held + s.given + _ at hturns
      change (s₁.put c .turn).held + (s₁.put c .turn).given + (s.free - 1) + 0 = total
      omega
    · rw [Gate.node_put hc₁]
      by_cases hx : x = c
      · rw [if_pos hx]
        exact ⟨fun hin => (by cases hin), fun ⟨_, hin, _⟩ => (by cases hin)⟩
      · rw [if_neg hx]
        exact h.mem x
    · change (s.grants ++ [c] ++ []).Sublist (s.arrivals ++ [c])
      have horder := h.order
      rw [List.append_nil] at horder ⊢
      exact horder.append (List.Sublist.refl [c])
    · have hmore := (h.records.grant c).put (s := s₁) (n := .turn) hc₁
        (fun _ _ => Phase.noConfusion) fun _ => List.mem_append_right _ List.mem_cons_self
      exact hmore.arrive (h.not_arrived hc) hself fun _ => Phase.noConfusion
  · rw [if_neg hfree]
    by_cases hzero : limit = some 0
    · rw [if_pos hzero]
      refine ⟨line, h.put hc hcline rfl ?_ (fun _ _ => Phase.noConfusion) fun hs => (by cases hs)⟩
      rfl
    · rw [if_neg hzero]
      have hbusy : s.head ≠ none ∨ s.free = 0 := by
        by_cases hhead : s.head = none
        · exact .inr (by by_contra hpos; exact hfree ⟨hhead, by omega⟩)
        · exact .inl hhead
      have hlinked : Sound total (s.link c limit) := ⟨_, h.link hc hbusy⟩
      exact (hlinked.tick elapsed).round (h.link_self hc)

theorem call (h : Sound total s) (limit : Option Nat) :
    Sound total { s with calls := s.calls ++ [.asking limit] } := by
  obtain ⟨line, h⟩ := h
  have hnode (x : Nat) : Gate.node { s with calls := s.calls ++ [.asking limit] } x = s.node x := by
    rw [Gate.node, Gate.node]
    by_cases hx : x < s.calls.length
    · rw [List.getElem?_append_left hx]
    · rw [List.getElem?_append_right (by omega), List.getElem?_eq_none (Nat.not_lt.mp hx)]
      cases x - s.calls.length <;> rfl
  refine ⟨line, ?_, h.vacant, ?_, h.last, h.count, fun x => ?_, h.order, h.records.nodup, ?_, ?_⟩
  · have hall := h.conserved
    simp only [Gate.held, Gate.given, List.countP_append] at hall ⊢
    exact hall
  · refine h.linked.congr fun x _ => ?_
    rw [Gate.next, hnode, Gate.next]
  · rw [hnode]
    exact h.mem x
  · intro x hx
    obtain ⟨p, hp, hasking⟩ := h.records.arrived x hx
    obtain ⟨hlt, _⟩ := List.getElem?_eq_some_iff.mp hp
    exact ⟨p, by rw [List.getElem?_append_left hlt]; exact hp, hasking⟩
  · intro x p hp hs
    by_cases hx : x < s.calls.length
    · rw [List.getElem?_append_left hx] at hp
      exact h.records.served x p hp hs
    · rw [List.getElem?_append_right (by omega)] at hp
      cases hn : x - s.calls.length with
      | zero =>
        rw [hn] at hp
        obtain rfl := Option.some.inj hp
        cases hs
      | succ n =>
        rw [hn] at hp
        cases hp

theorem step {s' : Gate} (h : Sound total s) {a : Act} (hs : step s a = some s') : Sound total s' := by
  cases a with
  | call limit =>
    obtain rfl := Option.some.inj hs
    exact h.call limit
  | tick n =>
    obtain rfl := Option.some.inj hs
    exact h.tick n
  | refused c =>
    rw [Bulkhead.step] at hs
    split at hs
    · rename_i hc
      obtain rfl := Option.some.inj hs
      obtain ⟨line, h⟩ := h
      have hcline := h.not_mem hc fun _ _ _ => Phase.noConfusion
      refine ⟨line, h.put hc hcline rfl rfl (fun _ _ => Phase.noConfusion) fun hs => (by cases hs)⟩
    · cases hs
  | locked c elapsed =>
    rw [Bulkhead.step] at hs
    split at hs
    · rename_i hc
      obtain rfl := Option.some.inj hs
      exact h.arrive hc elapsed
    · cases hs
  | woken c =>
    rw [Bulkhead.step] at hs
    split at hs
    · rename_i hc
      obtain rfl := Option.some.inj hs
      exact h.round hc
    · cases hs
  | broken c error =>
    rw [Bulkhead.step] at hs
    split at hs
    · rename_i hc
      split at hs
      · cases hs
      · obtain rfl := Option.some.inj hs
        exact h.settle hc error
    · cases hs
  | leave c =>
    rw [Bulkhead.step] at hs
    split at hs
    · rename_i hc
      obtain rfl := Option.some.inj hs
      obtain ⟨line, h⟩ := h
      have hcline := h.not_mem hc fun _ _ _ => Phase.noConfusion
      have hair : Inv total 1 (s.put c .left) line := by
        refine h.put hc hcline rfl rfl (fun _ _ => Phase.noConfusion) fun _ => ?_
        exact h.records.served c _ hc rfl
      exact ⟨line.tail, hair.handOn⟩
    · cases hs

theorem run {s' : Gate} {acts : List Act} (h : Sound total s) (hs : run s acts = some s') :
    Sound total s' := by
  induction acts generalizing s with
  | nil =>
    obtain rfl := Option.some.inj hs
    exact h
  | cons a acts ih =>
    obtain ⟨s₁, h₁, hrest⟩ := Option.bind_eq_some_iff.mp hs
    exact ih (h.step h₁) hrest

end Sound

/-! ## Every interleaving -/

/-- What a caller may count on, whoever else comes, gives up or is cancelled: turns are neither
lost nor made, none is free while somebody waits, the list is of the calls that wait and of no
others, in the order they came in, and turns were given in that order. -/
structure Fair (total : Nat) (s : Gate) (line : List Nat) : Prop where
  conserved : s.held + s.given + s.free = total
  vacant : 0 < s.free → line = []
  linked : Seg s.next s.head line none
  last : s.tail = line.getLast?
  count : s.waiting = line.length
  mem : ∀ c, c ∈ line ↔
    ∃ limit started next, s.calls[c]? = some (.waiting limit started ⟨next, false⟩)
  order : (s.grants ++ line).Sublist s.arrivals
  nodup : s.arrivals.Nodup
  /-- Nobody has a turn that was not given one. -/
  served : ∀ c p, s.calls[c]? = some p → p.served = true → c ∈ s.grants
  failed : ∀ c error, s.calls[c]? = some (.failed error) → c ∉ line

theorem Inv.fair {total : Nat} {s : Gate} {line : List Nat} (h : Inv total 0 s line) :
    Fair total s line where
  conserved := h.conserved
  vacant := h.vacant
  linked := h.linked
  last := h.last
  count := h.count
  mem c := by
    constructor
    · exact h.mem_node
    · rintro ⟨limit, started, next, hc⟩
      exact (h.mem c).mpr ⟨_, Gate.node_eq_some.mpr ⟨limit, started, hc⟩, rfl⟩
  order := h.order
  nodup := h.records.nodup
  served := h.records.served
  failed c _ hc := h.not_mem hc fun _ _ _ => Phase.noConfusion

theorem run_fair (atOnce : Nat) (acts : List Act) {s : Gate} (h : run (init atOnce) acts = some s) :
    ∃ line, Fair (max 1 atOnce) s line := by
  have hinit : Sound (max 1 atOnce) (init atOnce) := ⟨[], Inv.init atOnce⟩
  obtain ⟨line, hinv⟩ := hinit.run h
  exact ⟨line, hinv.fair⟩

/-- Two wait for the one turn; the first of them is given it as its limit runs out, takes it and
gives it back, and the second is given it as it is cancelled. -/
def crossing : List Act :=
  [.call none, .locked 0 0, .call (some 5), .locked 1 0, .call none, .locked 2 0, .leave 0,
    .tick 9000000, .broken 1 .timedOut, .leave 1, .broken 2 .canceled]

theorem run_fair_crossing : ∃ s line, run (init 1) crossing = some s ∧ s.grants = [0, 1, 2] ∧
    s.free = 1 ∧ Fair 1 s line := by
  obtain ⟨line, hfair⟩ := run_fair 1 crossing rfl
  exact ⟨_, line, rfl, rfl, rfl, hfair⟩

end Nilo.Bulkhead
