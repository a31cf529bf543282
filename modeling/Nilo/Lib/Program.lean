import Mathlib.Logic.Relation

/-!
# Programs over a state that may stop with an error

A `Prog σ ε α` reads and changes a state `σ` and ends with a value or with an
error. **The state survives the error**: what a function did before it
returned one stays done, which is how an imperative program with error
returns behaves and what an `Except` around the state would lose.

A `Course` says how such programs may move: what is seen of the state
(`view`), the moves one step can make (`Move`), an invariant of the moves
(`Inv`), and what an error return guarantees (`Stopped`). `Course.Goes c m Q`
is then the specification used everywhere above: started in `c` with the
invariant, `m` changes the state only along the moves — also when it stops with
an error — and ends with a value `a` only where `Q a` holds. The invariant is
proved once, of the moves; it holds along every program that goes along them,
whatever its control flow.

* `Goes.bind`, `Goes.change`, `Goes.get_bind`, `Goes.ite`, `Goes.when` — the rules
  for programs written with `do`.
* `Goes.assuming` — the invariant may be used at any point.
* `Goes.lift` — a program that keeps to few moves keeps to more.
* `Goes.along` — a property every move preserves is kept by the program.

`Prog.Ends` is the plain triple beside it, for what an error return says: which
errors a program can stop with, and what it hands over.
-/

namespace Nilo.Lib

open Relation (ReflTransGen)

/-- A program over a state that may stop with an error. -/
def Prog (σ ε α : Type) : Type := σ → Except ε α × σ

namespace Prog

variable {σ ε α β : Type}

instance : Monad (Prog σ ε) where
  pure a := fun c => (.ok a, c)
  bind m f := fun c =>
    match m c with
    | (.ok a, c') => f a c'
    | (.error e, c') => (.error e, c')

instance : MonadStateOf σ (Prog σ ε) where
  get := fun c => (.ok c, c)
  set c := fun _ => (.ok (), c)
  modifyGet f := fun c => let r := f c; (.ok r.1, r.2)

instance : MonadExceptOf ε (Prog σ ε) where
  throw e := fun c => (.error e, c)
  tryCatch m h := fun c =>
    match m c with
    | (.ok a, c') => (.ok a, c')
    | (.error e, c') => h e c'

/-- The state a program leaves, with a value or with an error. -/
def exec (m : Prog σ ε α) (c : σ) : σ := (m c).2

/-- The program, when `p` holds. -/
def when (p : Prop) [Decidable p] (m : Prog σ ε Unit) : Prog σ ε Unit :=
  if p then m else pure ()

theorem bind_run (m : Prog σ ε α) (f : α → Prog σ ε β) (c : σ) :
    (m >>= f) c = match m c with
      | (.ok a, c') => f a c'
      | (.error e, c') => (.error e, c') := rfl

end Prog

export Prog (when)

/-! ## How programs end -/

namespace Prog

variable {σ ε α β : Type}

/-- From `c`, the program stops only with errors `P` allows, and hands over `Q`. -/
def Ends (P : ε → Prop) (c : σ) (m : Prog σ ε α) (Q : α → σ → Prop) : Prop :=
  (∀ e, (m c).1 = .error e → P e) ∧ ∀ a, (m c).1 = .ok a → Q a (m c).2

namespace Ends

variable {P : ε → Prop} {c : σ} {m : Prog σ ε α} {Q Q' : α → σ → Prop}
variable {f : α → Prog σ ε β} {R : β → σ → Prop}

theorem pure {a : α} (h : Q a c) : Ends P c (Pure.pure a : Prog σ ε α) Q := by
  refine ⟨?_, ?_⟩
  · intro e he
    cases he
  · intro b hb
    cases hb
    exact h

theorem bind (hm : Ends P c m Q) (hf : ∀ a c', Q a c' → Ends P c' (f a) R) :
    Ends P c (m >>= f) R := by
  obtain ⟨hstop, hok⟩ := hm
  rw [Ends, Prog.bind_run]
  match hmc : m c with
  | (.error e, c') =>
    rw [hmc] at hstop
    refine ⟨fun e' he' => ?_, ?_⟩
    · cases he'
      exact hstop e rfl
    · intro b hb
      cases hb
  | (.ok a, c') =>
    rw [hmc] at hok
    exact hf a c' (hok a rfl)

theorem get_bind {f : σ → Prog σ ε β} (hf : Ends P c (f c) R) : Ends P c (get >>= f) R := hf

theorem change {g : σ → σ} {Q : PUnit → σ → Prop} (hq : Q ⟨⟩ (g c)) :
    Ends P c (modify g : Prog σ ε PUnit) Q := by
  refine ⟨?_, ?_⟩
  · intro e he
    cases he
  · intro b _
    exact hq

theorem ite {p : Prop} [Decidable p] {m' : Prog σ ε α} (hy : p → Ends P c m Q)
    (hn : ¬p → Ends P c m' Q) : Ends P c (if p then m else m') Q := by
  split
  · exact hy ‹_›
  · exact hn ‹_›

theorem when {p : Prop} [Decidable p] {m : Prog σ ε Unit} {Q : Unit → σ → Prop}
    (hy : p → Ends P c m Q) (hn : ¬p → Q () c) : Ends P c (Prog.when p m) Q :=
  .ite hy fun h => .pure (hn h)

theorem weaken (hm : Ends P c m Q) (h : ∀ a c', Q a c' → Q' a c') : Ends P c m Q' :=
  ⟨hm.1, fun a ha => h a _ (hm.2 a ha)⟩

theorem and (hm : Ends P c m Q) (hm' : Ends P c m Q') :
    Ends P c m fun a c' => Q a c' ∧ Q' a c' :=
  ⟨hm.1, fun a ha => ⟨hm.2 a ha, hm'.2 a ha⟩⟩

end Ends
end Prog

/-! ## Courses -/

/-- How programs may move a state, with an invariant of the moves. -/
structure Course (σ τ : Type) where
  view : σ → τ
  Move : τ → τ → Prop
  Inv : τ → Prop
  keeps : ∀ {a b}, Move a b → Inv a → Inv b
  Stopped : σ → Prop

namespace Course

variable {σ τ ε α β : Type}

/-- Moves one after the other. -/
abbrev Path (S : Course σ τ) : τ → τ → Prop := ReflTransGen S.Move

/-- What every step preserves, the way preserves. -/
theorem preserved {M : τ → τ → Prop} {P : τ → Prop} {a b : τ} (p : ReflTransGen M a b)
    (hP : ∀ {a b}, M a b → P a → P b) (h : P a) : P b := by
  induction p with
  | refl => exact h
  | tail _ m ih => exact hP m ih

theorem Path.keeps {S : Course σ τ} {a b : τ} (p : S.Path a b) (h : S.Inv a) : S.Inv b :=
  preserved p S.keeps h

/-- What every move preserves under the invariant is preserved by the way. -/
theorem Path.along {S : Course σ τ} {P : τ → Prop} {a b : τ} (p : S.Path a b) (hi : S.Inv a)
    (hP : ∀ {a b}, S.Move a b → S.Inv a → P a → P b) (h : P a) : P b := by
  have : S.Inv b ∧ P b :=
    preserved (P := fun x => S.Inv x ∧ P x) p (fun m hk => ⟨S.keeps m hk.1, hP m hk.1 hk.2⟩) ⟨hi, h⟩
  exact this.2

/-- From `c`, the program moves along the course and hands over `Q`. -/
def Goes (S : Course σ τ) (c : σ) (m : Prog σ ε α) (Q : α → σ → Prop) : Prop :=
  S.Inv (S.view c) →
    S.Path (S.view c) (S.view (m c).2) ∧
    (∀ e, (m c).1 = .error e → S.Stopped (m c).2) ∧
    ∀ a, (m c).1 = .ok a → Q a (m c).2

namespace Goes

variable {S T : Course σ τ} {c : σ} {m : Prog σ ε α} {Q Q' : α → σ → Prop}
variable {f : α → Prog σ ε β} {R : β → σ → Prop}

theorem pure {a : α} (h : Q a c) : S.Goes c (Pure.pure a : Prog σ ε α) Q := by
  intro _
  refine ⟨.refl, ?_, ?_⟩
  · intro e he
    cases he
  · intro b hb
    cases hb
    exact h

theorem throw {e : ε} (h : S.Stopped c) : S.Goes c (MonadExcept.throw e : Prog σ ε α) Q := by
  intro _
  refine ⟨.refl, fun _ _ => h, ?_⟩
  intro b hb
  cases hb

/-- One after the other: what the first hands over is where the second starts. -/
theorem bind (hm : S.Goes c m Q) (hf : ∀ a c', Q a c' → S.Goes c' (f a) R) :
    S.Goes c (m >>= f) R := by
  intro hi
  obtain ⟨path, hstop, hok⟩ := hm hi
  rw [Prog.bind_run]
  match hmc : m c with
  | (.error e, c') =>
    rw [hmc] at path hstop
    refine ⟨path, fun _ _ => hstop e rfl, ?_⟩
    intro b hb
    cases hb
  | (.ok a, c') =>
    rw [hmc] at path hok
    obtain ⟨path', hstop', hok'⟩ := hf a c' (hok a rfl) (Path.keeps path hi)
    exact ⟨path.trans path', hstop', hok'⟩

theorem get_bind {f : σ → Prog σ ε β} (hf : S.Goes c (f c) R) : S.Goes c (get >>= f) R := hf

theorem change {g : σ → σ} {Q : PUnit → σ → Prop} (hp : S.Path (S.view c) (S.view (g c)))
    (hq : Q ⟨⟩ (g c)) : S.Goes c (modify g : Prog σ ε PUnit) Q := by
  intro _
  refine ⟨hp, ?_, ?_⟩
  · intro e he
    cases he
  · intro b hb
    exact hq

/-- A change that is not seen. -/
theorem quiet {g : σ → σ} {Q : PUnit → σ → Prop} (hv : S.view (g c) = S.view c) (hq : Q ⟨⟩ (g c)) :
    S.Goes c (modify g : Prog σ ε PUnit) Q := by
  refine .change ?_ hq
  rw [hv]

/-- A change that is one move. -/
theorem move {g : σ → σ} {Q : PUnit → σ → Prop} (hm : S.Move (S.view c) (S.view (g c)))
    (hq : Q ⟨⟩ (g c)) : S.Goes c (modify g : Prog σ ε PUnit) Q :=
  .change (.single hm) hq

/-- A program may be read as another that does the same from where it starts. -/
theorem as {n : Prog σ ε α} (heq : m c = n c) (hm : S.Goes c n Q) : S.Goes c m Q := by
  intro hi
  rw [heq]
  exact hm hi

/-- The invariant may be used wherever the program stands. -/
theorem assuming (h : S.Inv (S.view c) → S.Goes c m Q) : S.Goes c m Q := fun hi => h hi hi

theorem ite {p : Prop} [Decidable p] {m' : Prog σ ε α} (hy : p → S.Goes c m Q)
    (hn : ¬p → S.Goes c m' Q) : S.Goes c (if p then m else m') Q := by
  split
  · exact hy ‹_›
  · exact hn ‹_›

theorem when {p : Prop} [Decidable p] {m : Prog σ ε Unit} {Q : Unit → σ → Prop}
    (hy : p → S.Goes c m Q) (hn : ¬p → Q () c) : S.Goes c (Prog.when p m) Q :=
  .ite hy fun h => .pure (hn h)

theorem weaken (hm : S.Goes c m Q) (h : ∀ a c', Q a c' → Q' a c') : S.Goes c m Q' := by
  intro hi
  obtain ⟨path, hstop, hok⟩ := hm hi
  exact ⟨path, hstop, fun a ha => h a _ (hok a ha)⟩

/-- What a change hands over is the changed state. -/
theorem exact {g : σ → σ} {Q : PUnit → σ → Prop} (hm : S.Goes c (modify g : Prog σ ε PUnit) Q) :
    S.Goes c (modify g : Prog σ ε PUnit) fun a c' => Q a c' ∧ c' = g c := by
  intro hi
  obtain ⟨path, hstop, hok⟩ := hm hi
  exact ⟨path, hstop, fun a ha => ⟨hok a ha, rfl⟩⟩

/-- What a program hands over may be read with the way it came. -/
theorem traced (hm : S.Goes c m Q) :
    S.Goes c m fun a c' => Q a c' ∧ S.Path (S.view c) (S.view c') := by
  intro hi
  obtain ⟨path, hstop, hok⟩ := hm hi
  exact ⟨path, hstop, fun a ha => ⟨hok a ha, path⟩⟩

/-- What every move preserves, said of what a program hands over. -/
theorem keeping {P : τ → Prop} (hm : S.Goes c m Q)
    (hP : ∀ {a b}, S.Move a b → S.Inv a → P a → P b) (h : P (S.view c)) :
    S.Goes c m fun a c' => Q a c' ∧ P (S.view c') := by
  refine .assuming fun hi => ?_
  exact hm.traced.weaken fun _ _ ht => ⟨ht.1, Path.along ht.2 hi hP h⟩

/-- A program that keeps to the moves of one course keeps to those of a wider one. -/
theorem lift (hv : T.view = S.view) (hmove : ∀ {a b}, S.Move a b → T.Move a b)
    (hinv : ∀ {a}, T.Inv a → S.Inv a) (hstopped : ∀ {d}, S.Stopped d → T.Stopped d)
    (hm : S.Goes c m Q) : T.Goes c m Q := by
  intro hi
  rw [hv] at hi ⊢
  obtain ⟨path, hstop, hok⟩ := hm (hinv hi)
  exact ⟨ReflTransGen.mono (fun _ _ h => hmove h) _ _ path, fun e he => hstopped (hstop e he), hok⟩

/-- What every move preserves is kept by the program, whether it ends or stops. -/
theorem along {P : τ → Prop} (hm : S.Goes c m Q) (hi : S.Inv (S.view c))
    (hP : ∀ {a b}, S.Move a b → S.Inv a → P a → P b) (h : P (S.view c)) :
    P (S.view (m c).2) := by
  obtain ⟨path, -, -⟩ := hm hi
  exact Path.along path hi hP h

/-- What a program that goes along a course hands over, with the invariant. -/
theorem ends (hm : S.Goes c m Q) (hi : S.Inv (S.view c)) :
    Prog.Ends (fun _ => True) c m fun a c' => Q a c' ∧ S.Inv (S.view c') := by
  obtain ⟨path, -, hok⟩ := hm hi
  exact ⟨fun _ _ => trivial, fun a ha => ⟨hok a ha, Path.keeps path hi⟩⟩

end Goes
end Course
end Nilo.Lib
