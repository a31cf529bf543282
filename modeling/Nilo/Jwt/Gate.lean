import Nilo.Jwt.Memo
import Nilo.Jwt.Token

/-!
# Verifying with a memo (`jwt/token.zig`, `jwt/memo.zig`)

Calls of `verify` that share one memo, step by step: a call asks the memo, checks the signature if
the memo does not answer, hands the digest in, and reads the claims. The steps of several calls come
in any order, and the memo may be emptied between any two. The keys are another's to replace: not
while a call is in progress, and not without emptying the memo.

`World.passed` is bookkeeping: the tokens whose signature a call has checked and handed in since the
memo was last emptied. `Inv` is that the memo answers for these alone, and that each of them passes
under the keys of now. So a call that leaves the check out leaves out one that would pass, and
whatever a call returns is what it would have returned with no memo (`run_gate`).
-/

namespace Nilo.Jwt

open Text (Bytes ascii)

/-! ## The calls -/

/-- Where a call is. -/
inductive Phase (Claims : Type) where
  | entered
  /-- The memo did not answer. -/
  | missed (f : Front)
  /-- The signature passed, and the digest is still to be handed in. -/
  | passed (f : Front)
  /-- Only the claims are left. With `since`, the memo answered: these tokens had been checked and
  handed in since it was last emptied, as of then. -/
  | ready (f : Front) (since : Option (List Bytes))
  | done (result : Except Error Claims)

structure Call (Claims : Type) where
  token : Bytes
  opts : Options
  phase : Phase Claims

def Call.isDone {Claims : Type} (call : Call Claims) : Bool :=
  match call.phase with
  | .done _ => true
  | _ => false

structure World (Claims : Type) where
  keys : Keys
  memo : Memo
  calls : List (Call Claims)
  passed : List Bytes

inductive Act where
  | enter (token : Bytes) (opts : Options)
  | go (i : Nat)
  | clear
  | replace (keys : Keys)
deriving Repr

variable {Claims : Type} (c : Crypto) (js : Json Claims)

/-- Whether a memo, if there is one, answers. -/
def answers (memo : Option Memo) (token : Bytes) : Bool :=
  match memo with
  | some m => m.has (digestOf token)
  | none => false

/-- What the next step of a call finds out, under these keys. -/
def Phase.next (keys : Keys) (memo : Option Memo) (since : List Bytes) (token : Bytes)
    (opts : Options) : Phase Claims → Option (Phase Claims)
  | .entered =>
    match front js keys token with
    | .error e => some (.done (.error e))
    | .ok f => if answers memo token then some (.ready f (some since)) else some (.missed f)
  | .missed f =>
    match checkSignature c f.key.material f.signed f.sig with
    | .error e => some (.done (.error e))
    | .ok () => some (.passed f)
  | .passed f => some (.ready f none)
  | .ready f _ => some (.done (back js opts f.payload))
  | .done _ => none

/-- Whether the next step hands the digest in. -/
def Phase.hands : Phase Claims → Bool
  | .passed _ => true
  | _ => false

namespace World

def move (w : World Claims) (i : Nat) (call : Call Claims) (phase : Phase Claims) :
    World Claims :=
  { w with calls := w.calls.set i { call with phase } }

def remember (w : World Claims) (token : Bytes) : World Claims :=
  { w with memo := w.memo.remember (digestOf token), passed := token :: w.passed }

/-- The next step of a call. -/
def go (w : World Claims) (i : Nat) (call : Call Claims) : Option (World Claims) :=
  (call.phase.next c js w.keys (some w.memo) w.passed call.token call.opts).map fun phase =>
    if call.phase.hands then (w.move i call phase).remember call.token else w.move i call phase

def act (w : World Claims) : Act → Option (World Claims)
  | .enter token opts => some { w with calls := w.calls ++ [⟨token, opts, .entered⟩] }
  | .go i => w.calls[i]?.bind fun call => w.go c js i call
  | .clear => some { w with memo := w.memo.clear, passed := [] }
  | .replace keys =>
    if w.calls.all Call.isDone then some { w with keys, memo := w.memo.clear, passed := [] }
    else none

def run (w : World Claims) (acts : List Act) : Option (World Claims) :=
  acts.foldlM (fun w a => w.act c js a) w

end World

def start (keys : Keys) (capacity : Nat) (junk : Nat → Digest) : World Claims :=
  ⟨keys, Memo.init capacity junk, [], []⟩

/-- The tokens a history asks about. -/
def tokens (acts : List Act) : List Bytes :=
  acts.filterMap fun a =>
    match a with
    | .enter token _ => some token
    | _ => none

/-! ## What every history keeps -/

/-- The token passes under these keys. -/
def Checked (keys : Keys) (token : Bytes) : Prop :=
  ∃ f, front js keys token = .ok f ∧ checkSignature c f.key.material f.signed f.sig = .ok ()

/-- What a call has found out so far is what it would find out now. -/
def Phase.Ok (keys : Keys) (token : Bytes) : Phase Claims → Prop
  | .entered => True
  | .missed f => front js keys token = .ok f
  | .passed f => front js keys token = .ok f ∧
      checkSignature c f.key.material f.signed f.sig = .ok ()
  | .ready f since => front js keys token = .ok f ∧
      checkSignature c f.key.material f.signed f.sig = .ok () ∧ ∀ S, since = some S → token ∈ S
  | .done _ => True

/-- The memo answers for what was handed in alone, and all of it passes under the keys of now. -/
structure Inv (asked : List Bytes) (w : World Claims) : Prop where
  known : w.memo.Known fun d => ∃ token ∈ w.passed, digestOf token = d
  checked : ∀ token ∈ w.passed, Checked c js w.keys token
  passed_asked : ∀ token ∈ w.passed, token ∈ asked
  calls_asked : ∀ call ∈ w.calls, call.token ∈ asked
  calls : ∀ call ∈ w.calls, call.phase.Ok c js w.keys call.token

/-- No two of these tokens have one digest. -/
def Apart (asked : List Bytes) : Prop :=
  ∀ token ∈ asked, ∀ other ∈ asked, digestOf token = digestOf other → token = other

variable {c js}

section Next

variable {keys : Keys} {memo : Option Memo} {since : List Bytes} {token : Bytes} {opts : Options}
variable {phase later : Phase Claims}

/-- A step keeps what a call has found out true, where the memo answers only for tokens that pass
and are in `since`. -/
theorem Phase.Ok.next (h : phase.Ok c js keys token)
    (hmemo : answers memo token = true → Checked c js keys token ∧ token ∈ since)
    (hnext : phase.next c js keys memo since token opts = some later) :
    later.Ok c js keys token := by
  cases phase with
  | entered =>
    rw [Phase.next] at hnext
    cases hfront : front js keys token with
    | error e =>
      simp only [hfront] at hnext
      obtain rfl := Option.some.inj hnext
      trivial
    | ok f =>
      simp only [hfront] at hnext
      split at hnext
      · rename_i hanswers
        obtain rfl := Option.some.inj hnext
        obtain ⟨⟨g, hg, hsig⟩, hin⟩ := hmemo hanswers
        obtain rfl : f = g := Except.ok.inj (hfront.symm.trans hg)
        refine ⟨hfront, hsig, ?_⟩
        intro S hS
        obtain rfl := Option.some.inj hS
        exact hin
      · obtain rfl := Option.some.inj hnext
        exact hfront
  | missed f =>
    rw [Phase.next] at hnext
    cases hsig : checkSignature c f.key.material f.signed f.sig with
    | error e =>
      simp only [hsig] at hnext
      obtain rfl := Option.some.inj hnext
      trivial
    | ok u =>
      simp only [hsig] at hnext
      obtain rfl := Option.some.inj hnext
      exact ⟨h, hsig⟩
  | passed f =>
    obtain rfl := Option.some.inj hnext
    exact ⟨h.1, h.2, fun S hS => (by cases hS)⟩
  | ready f since =>
    obtain rfl := Option.some.inj hnext
    trivial
  | done result => cases hnext

/-- What a step returns is what `verify` returns with no memo, and claims come back only from a call
that is `ready`. -/
theorem Phase.Ok.result (h : phase.Ok c js keys token) {result : Except Error Claims}
    (hnext : phase.next c js keys memo since token opts = some (.done result)) :
    result = verify c js keys opts token ∧
      ∀ claims, result = .ok claims → ∃ f since, phase = .ready f since := by
  cases phase with
  | entered =>
    rw [Phase.next] at hnext
    cases hfront : front js keys token with
    | error e =>
      simp only [hfront] at hnext
      cases hnext
      exact ⟨(verify_of_front_error hfront).symm, fun _ hc => (by cases hc)⟩
    | ok f =>
      simp only [hfront] at hnext
      split at hnext <;> cases hnext
  | missed f =>
    rw [Phase.next] at hnext
    cases hsig : checkSignature c f.key.material f.signed f.sig with
    | error e =>
      simp only [hsig] at hnext
      cases hnext
      exact ⟨(verify_of_check_error h hsig).symm, fun _ hc => (by cases hc)⟩
    | ok u =>
      simp only [hsig] at hnext
      cases hnext
  | passed f => cases hnext
  | ready f since =>
    cases hnext
    exact ⟨(verify_of_check h.1 h.2.1).symm, fun _ _ => ⟨f, since, rfl⟩⟩
  | done result => cases hnext

end Next

variable {asked : List Bytes} {w w' : World Claims} {i : Nat} {call : Call Claims}

theorem inv_start (c : Crypto) (js : Json Claims) (keys : Keys) (capacity : Nat) (junk : Nat → Digest) :
    Inv c js asked (start keys capacity junk : World Claims) where
  known := Memo.known_init capacity junk _
  checked := by simp [start]
  passed_asked := by simp [start]
  calls_asked := by simp [start]
  calls := by simp [start]

/-- A call takes a step: the rest are as they were. -/
theorem Inv.move (h : Inv c js asked w) (hi : w.calls[i]? = some call) {phase : Phase Claims}
    (hok : phase.Ok c js w.keys call.token) :
    Inv c js asked (w.move i call phase) where
  known := h.known
  checked := h.checked
  passed_asked := h.passed_asked
  calls_asked := by
    intro other hother
    rcases List.mem_or_eq_of_mem_set hother with hin | rfl
    · exact h.calls_asked other hin
    · exact h.calls_asked call (List.mem_of_getElem? hi)
  calls := by
    intro other hother
    rcases List.mem_or_eq_of_mem_set hother with hin | rfl
    · exact h.calls other hin
    · exact hok

/-- A token the memo answers for was handed in. -/
theorem Inv.has (h : Inv c js asked w) (happart : Apart asked) {token : Bytes}
    (htoken : token ∈ asked) (hhas : w.memo.has (digestOf token) = true) : token ∈ w.passed := by
  obtain ⟨other, hother, heq⟩ := h.known.has hhas
  exact happart other (h.passed_asked other hother) token htoken heq ▸ hother

theorem Inv.remember (h : Inv c js asked w) {token : Bytes} (htoken : token ∈ asked)
    (hchecked : Checked c js w.keys token) :
    Inv c js asked (w.remember token) where
  known := by
    refine (h.known.mono ?_).remember ⟨token, List.mem_cons_self, rfl⟩
    rintro d ⟨other, hother, hd⟩
    exact ⟨other, List.mem_cons_of_mem token hother, hd⟩
  checked := by
    intro other hother
    rcases List.mem_cons.mp hother with rfl | hin
    · exact hchecked
    · exact h.checked other hin
  passed_asked := by
    intro other hother
    rcases List.mem_cons.mp hother with rfl | hin
    · exact htoken
    · exact h.passed_asked other hin
  calls_asked := h.calls_asked
  calls := h.calls

theorem Inv.clear (h : Inv c js asked w) :
    Inv c js asked { w with memo := w.memo.clear, passed := [] } where
  known := Memo.known_clear w.memo _
  checked := by simp
  passed_asked := by simp
  calls_asked := h.calls_asked
  calls := h.calls

theorem Inv.enter (h : Inv c js asked w) {token : Bytes} {opts : Options}
    (htoken : token ∈ asked) :
    Inv c js asked { w with calls := w.calls ++ [⟨token, opts, .entered⟩] } where
  known := h.known
  checked := h.checked
  passed_asked := h.passed_asked
  calls_asked := by
    intro other hother
    rcases List.mem_append.mp hother with hin | hin
    · exact h.calls_asked other hin
    · rw [List.mem_singleton.mp hin]
      exact htoken
  calls := by
    intro other hother
    rcases List.mem_append.mp hother with hin | hin
    · exact h.calls other hin
    · rw [List.mem_singleton.mp hin]
      trivial

theorem Call.ok_of_isDone {keys : Keys} (h : call.isDone = true) :
    call.phase.Ok c js keys call.token := by
  obtain ⟨token, opts, phase⟩ := call
  cases phase with
  | done result => trivial
  | entered => cases h
  | missed f => cases h
  | passed f => cases h
  | ready f since => cases h

theorem Inv.replace (h : Inv c js asked w) (keys : Keys)
    (hdone : w.calls.all Call.isDone = true) :
    Inv c js asked { w with keys, memo := w.memo.clear, passed := [] } where
  known := Memo.known_clear w.memo _
  checked := by simp
  passed_asked := by simp
  calls_asked := h.calls_asked
  calls call hcall := Call.ok_of_isDone (List.all_eq_true.mp hdone call hcall)

/-! ## The step of a call -/

/-- The memo answers for a token that passes, and was handed in. -/
theorem Inv.answers (h : Inv c js asked w) (happart : Apart asked) {token : Bytes}
    (htoken : token ∈ asked) (hanswers : answers (some w.memo) token = true) :
    Checked c js w.keys token ∧ token ∈ w.passed :=
  have hin := h.has happart htoken hanswers
  ⟨h.checked token hin, hin⟩

theorem Inv.go (h : Inv c js asked w) (happart : Apart asked) (hi : w.calls[i]? = some call)
    (hgo : w.go c js i call = some w') : Inv c js asked w' := by
  have hmem := List.mem_of_getElem? hi
  have hok := h.calls call hmem
  have hasked := h.calls_asked call hmem
  obtain ⟨next, hnext, rfl⟩ := Option.map_eq_some_iff.mp hgo
  have hmoved := h.move hi (hok.next (h.answers happart hasked) hnext)
  split
  · rename_i hhands
    refine hmoved.remember hasked ?_
    -- Only a call whose signature has passed hands a digest in.
    cases hphase : call.phase with
    | passed f =>
      rw [hphase] at hok
      exact ⟨f, hok⟩
    | entered => simp [hphase, Phase.hands] at hhands
    | missed f => simp [hphase, Phase.hands] at hhands
    | ready f since => simp [hphase, Phase.hands] at hhands
    | done result => simp [hphase, Phase.hands] at hhands
  · exact hmoved

theorem Inv.act (h : Inv c js asked w) (happart : Apart asked) {a : Act}
    (htoken : ∀ token opts, a = .enter token opts → token ∈ asked)
    (hact : w.act c js a = some w') : Inv c js asked w' := by
  cases a with
  | enter token opts =>
    obtain rfl := Option.some.inj hact
    exact h.enter (htoken token opts rfl)
  | go i =>
    obtain ⟨call, hi, hgo⟩ := Option.bind_eq_some_iff.mp hact
    exact h.go happart hi hgo
  | clear =>
    obtain rfl := Option.some.inj hact
    exact h.clear
  | replace keys =>
    rw [World.act] at hact
    split at hact
    · rename_i hdone
      obtain rfl := Option.some.inj hact
      exact h.replace keys hdone
    · cases hact

theorem Inv.run (h : Inv c js asked w) (happart : Apart asked) {acts : List Act}
    (htokens : ∀ token ∈ tokens acts, token ∈ asked) (hrun : w.run c js acts = some w') :
    Inv c js asked w' := by
  induction acts generalizing w with
  | nil =>
    obtain rfl := Option.some.inj hrun
    exact h
  | cons a rest ih =>
    rw [World.run, List.foldlM_cons] at hrun
    obtain ⟨mid, hact, hrest⟩ := Option.bind_eq_some_iff.mp hrun
    refine ih (h.act happart ?_ hact) ?_ hrest
    · rintro token opts rfl
      exact htokens token (by simp [tokens])
    · intro token htoken
      refine htokens token ?_
      rw [tokens, List.filterMap_cons]
      split
      · exact htoken
      · exact List.mem_cons_of_mem _ htoken

/-- A call that is done after a step was made so by it. -/
theorem World.next_of_done {result : Except Error Claims} (hi : w.calls[i]? = some call)
    (hgo : w.go c js i call = some w')
    (hdone : w'.calls[i]? = some { call with phase := .done result }) :
    call.phase.next c js w.keys (some w.memo) w.passed call.token call.opts =
      some (.done result) := by
  obtain ⟨next, hnext, rfl⟩ := Option.map_eq_some_iff.mp hgo
  have hlt := (List.getElem?_eq_some_iff.mp hi).1
  have hcalls : (if call.phase.hands then (w.move i call next).remember call.token
      else w.move i call next).calls = w.calls.set i { call with phase := next } := by
    split <;> rfl
  rw [hcalls, List.getElem?_set_self hlt] at hdone
  have hphase : next = .done result := congrArg Call.phase (Option.some.inj hdone)
  rw [hnext, hphase]

theorem Inv.signed (h : Inv c js asked w) {token : Bytes} (htoken : token ∈ w.passed) :
    ∃ key ∈ w.keys.all, SignedBy c js w.keys key token := by
  obtain ⟨f, hfront, hsig⟩ := h.checked token htoken
  have hsigned := signedBy_of_front hfront hsig
  obtain ⟨_, _, header, _, _, _, _, _, _, hfind, _⟩ := hsigned.segments
  exact ⟨f.key, Keys.find_mem hfind, hsigned⟩

/-! ## Every history -/

/-- In every history of calls over one memo, with no two of the tokens asked about under one digest:

* the memo answers only for a digest handed in since it was last emptied, and the token it is of
  passes under a key of the set;
* what a call returns is what it returns with no memo; and if it is claims, then the token passes
  under a key of the set, its payload passes in this call, and the call has checked the signature
  itself or was answered for a token that had been checked and handed in since the memo was last
  emptied. -/
theorem run_gate (keys : Keys) (capacity : Nat) (junk : Nat → Digest) (acts : List Act)
    (hrun : (start keys capacity junk).run c js acts = some w) (happart : Apart (tokens acts)) :
    (∀ d, w.memo.has d = true → ∃ token ∈ w.passed, digestOf token = d) ∧
      (∀ token ∈ w.passed, ∃ key ∈ w.keys.all, SignedBy c js w.keys key token) ∧
      ∀ i call w' result, w.calls[i]? = some call → w.act c js (.go i) = some w' →
        w'.calls[i]? = some { call with phase := .done result } →
        result = verify c js w.keys call.opts call.token ∧
          ∀ claims, result = .ok claims →
            (∃ key ∈ w.keys.all, SignedBy c js w.keys key call.token) ∧
            Current js call.opts call.token claims ∧
            ∃ f since, call.phase = .ready f since ∧ ∀ S, since = some S → call.token ∈ S := by
  have hinv := (inv_start c js keys capacity junk).run happart
    (fun _ h => h) hrun
  refine ⟨fun d hd => hinv.known.has hd, fun token h => hinv.signed h, ?_⟩
  intro i call w' result hi hact hdone
  obtain ⟨found, hfound, hgo⟩ := Option.bind_eq_some_iff.mp hact
  obtain rfl : call = found := Option.some.inj (hi.symm.trans hfound)
  have hok := hinv.calls call (List.mem_of_getElem? hi)
  obtain ⟨hresult, hready⟩ := hok.result (World.next_of_done hi hgo hdone)
  refine ⟨hresult, ?_⟩
  rintro claims rfl
  obtain ⟨f, since, hphase⟩ := hready claims rfl
  rw [hphase] at hok
  obtain ⟨hfront, hsig, hsince⟩ := hok
  have hsigned := signedBy_of_front hfront hsig
  obtain ⟨_, _, header, _, _, _, _, _, _, hfind, _⟩ := hsigned.segments
  refine ⟨⟨f.key, Keys.find_mem hfind, hsigned⟩, ?_, f, since, hphase, hsince⟩
  exact current_of_back hfront (hresult.trans (verify_of_check hfront hsig)).symm

/-- What the signed example of the token's tests is made of. -/
def exampleHeader : Bytes := ascii "eyJhbGciOiJFUzI1NiJ9"

def examplePayload : Bytes :=
  ascii ("eyJpc3MiOiJqb2UiLA0KICJleHAiOjEzMDA4MTkzODAsDQogImh0dHA6Ly9leGFt" ++
    "cGxlLmNvbS9pc19yb290Ijp0cnVlfQ")

def exampleSignature : Bytes :=
  ascii "DtEhU3ljbEg8L38VWAfUAqOyKAM6-Xx-F4GawxaepmXFCgfTjDxw5djxLa8ISlSApmWQxfKTUJqPP3-Kg6NU1Q"

def exampleToken : Bytes := exampleHeader ++ dot :: (examplePayload ++ dot :: exampleSignature)

-- The texts as bytes: a run that the kernel evaluates reads a list faster than a text.

theorem exampleHeader_eq : exampleHeader =
    [101, 121, 74, 104, 98, 71, 99, 105, 79, 105, 74, 70, 85, 122, 73, 49, 78, 105, 74, 57] :=
  Text.ascii_ofList _

theorem examplePayload_eq : examplePayload =
    [101, 121, 74, 112, 99, 51, 77, 105, 79, 105, 74, 113, 98, 50, 85, 105, 76, 65, 48, 75, 73,
      67, 74, 108, 101, 72, 65, 105, 79, 106, 69, 122, 77, 68, 65, 52, 77, 84, 107, 122, 79, 68,
      65, 115, 68, 81, 111, 103, 73, 109, 104, 48, 100, 72, 65, 54, 76, 121, 57, 108, 101, 71, 70,
      116, 99, 71, 120, 108, 76, 109, 78, 118, 98, 83, 57, 112, 99, 49, 57, 121, 98, 50, 57, 48,
      73, 106, 112, 48, 99, 110, 86, 108, 102, 81] := by
  rw [examplePayload, Text.ascii_append, Text.ascii_ofList, Text.ascii_ofList]
  rfl

theorem exampleSignature_eq : exampleSignature =
    [68, 116, 69, 104, 85, 51, 108, 106, 98, 69, 103, 56, 76, 51, 56, 86, 87, 65, 102, 85, 65,
      113, 79, 121, 75, 65, 77, 54, 45, 88, 120, 45, 70, 52, 71, 97, 119, 120, 97, 101, 112, 109,
      88, 70, 67, 103, 102, 84, 106, 68, 120, 119, 53, 100, 106, 120, 76, 97, 56, 73, 83, 108, 83,
      65, 112, 109, 87, 81, 120, 102, 75, 84, 85, 74, 113, 80, 80, 51, 45, 75, 103, 54, 78, 85,
      49, 81] :=
  Text.ascii_ofList _

def exampleX : Bytes := (keep (ascii "f83OJ3D2xF1Bg8vub9tLe1gHMzV76e8Tus9uPHvRVEU")).getD []

def exampleY : Bytes := (keep (ascii "x_FEzRu9m36HLN_tue659LNpXW6pCyStikYjKIWI5a0")).getD []

def exampleKeys : Keys := ⟨[⟨[], .ec ⟨ascii "P-256", exampleX, exampleY⟩⟩]⟩

/-- The base point of the curve, which is a key of its own. -/
def otherX : Bytes := (keep (ascii "axfR8uEsQkf4vOblY6RA8ncDfYEt6zOg9KE5RdiYwpY")).getD []

def otherY : Bytes := (keep (ascii "T-NC4v4af5uO5-tKfA-eFivOM1drMV7Oy7ZAaDe_UfU")).getD []

theorem examplePoints_eq :
    exampleX = [127, 205, 206, 39, 112, 246, 196, 93, 65, 131, 203, 238, 111, 219, 75, 123, 88, 7,
      51, 53, 123, 233, 239, 19, 186, 207, 110, 60, 123, 209, 84, 69] ∧
    exampleY = [199, 241, 68, 205, 27, 189, 155, 126, 135, 44, 223, 237, 185, 238, 185, 244, 179,
      105, 93, 110, 169, 11, 36, 173, 138, 70, 35, 40, 133, 136, 229, 173] ∧
    otherX = [107, 23, 209, 242, 225, 44, 66, 71, 248, 188, 230, 229, 99, 164, 64, 242, 119, 3, 125,
      129, 45, 235, 51, 160, 244, 161, 57, 69, 216, 152, 194, 150] ∧
    otherY = [79, 227, 66, 226, 254, 26, 127, 155, 142, 231, 235, 74, 124, 15, 158, 22, 43, 206, 51,
      87, 107, 49, 94, 206, 203, 182, 64, 104, 55, 191, 81, 245] := by
  rw [exampleX, exampleY, otherX, otherY, Text.ascii_ofList, Text.ascii_ofList, Text.ascii_ofList,
    Text.ascii_ofList]
  decide

/-- `std.crypto` on the example: the two keys are points, and the signature is valid under the first
alone. -/
def exampleCrypto : Crypto where
  rsaKey _ _ := false
  rsaVerify _ _ _ _ := .invalidSignature
  point _ bytes := bytes = sec1 exampleX exampleY ∨ bytes = sec1 otherX otherY
  ecdsaVerify _ signed sig bytes := signed = exampleHeader ++ dot :: examplePayload ∧
    some sig = keep exampleSignature ∧ bytes = sec1 exampleX exampleY
  edKey _ := false
  edVerify _ _ _ := false

/-- `std.json` on the example. -/
def exampleJson : Json Unit where
  header bytes :=
    if bytes = ascii "\x7b\"alg\":\"ES256\"\x7d" then some ⟨some (ascii "ES256"), none⟩ else none
  registered bytes :=
    if some bytes = keep examplePayload then some ⟨some (ascii "joe"), none, some 1300819380, none⟩
    else none
  claims bytes := if some bytes = keep examplePayload then some () else none

/-- The token is checked and handed in by one call, and the memo answers the next. -/
def exampleActs : List Act :=
  let opts : Options := ⟨.is (ascii "joe"), .unchecked, 1300819000, 0⟩
  [.enter exampleToken opts, .go 0, .go 0, .go 0, .go 0, .enter exampleToken opts, .go 1]

theorem run_gate_example : ∃ w w' : World Unit,
    (start exampleKeys 1 fun _ => []).run exampleCrypto exampleJson exampleActs = some w ∧
      w.act exampleCrypto exampleJson (.go 1) = some w' ∧
      exampleToken ∈ w.passed ∧
      ∃ key ∈ w.keys.all, SignedBy exampleCrypto exampleJson w.keys key exampleToken := by
  obtain ⟨hx, hy, hotherX, hotherY⟩ := examplePoints_eq
  have hrun : ((start exampleKeys 1 fun _ => []).run exampleCrypto exampleJson exampleActs).map
      (fun w => (w.calls.map Call.token, w.passed,
        (w.act exampleCrypto exampleJson (.go 1)).isSome)) =
      some ([exampleToken, exampleToken], [exampleToken], true) := by
    simp only [exampleActs, exampleKeys, hx, hy, hotherX, hotherY,
      exampleCrypto, exampleJson, exampleToken, exampleHeader_eq, examplePayload_eq,
      exampleSignature_eq]
    decide +kernel
  obtain ⟨w, hw, heq⟩ := Option.map_eq_some_iff.mp hrun
  simp only [Prod.mk.injEq] at heq
  obtain ⟨_, hpassed, hact⟩ := heq
  obtain ⟨w', hw'⟩ := Option.isSome_iff_exists.mp hact
  have happart : Apart (tokens exampleActs) := by
    intro token htoken other hother _
    simp only [tokens, exampleActs, List.filterMap_cons, List.filterMap_nil, List.mem_cons,
      List.not_mem_nil, or_false, or_self] at htoken hother
    rw [htoken, hother]
  have hin : exampleToken ∈ w.passed := by
    rw [hpassed]
    exact List.mem_cons_self
  exact ⟨w, w', hw, hw', hin,
    (run_gate exampleKeys 1 (fun _ => []) exampleActs hw happart).2.1 exampleToken hin⟩

end Nilo.Jwt
