import Nilo.Http.Proxies

/-!
# The client by a count of hops (`http/proxies.zig`)

`clientByHops` takes the entry that stands at a given place from the right of the forwarded fields.
The walk under it, `Forwarded.next`, takes an empty rest of a field for a field that is done, so an
empty entry at the very front of a field is passed over (`walked`). `walk_iff` says when the walk
hands out every entry, and with it when the count is right: where no field begins with a comma.
-/

namespace Nilo.Proxies

open Text (Bytes ascii lastIndexOf trimBlanks)

/-- The loop of `clientByHops`; every entry is at least a byte of the fields. -/
def hopsWithin (hops : Nat) : Nat → Nat → Forwarded → Option Bytes
  | 0, _, _ => none
  | n + 1, seen, entries =>
    match entries.next with
    | none => none
    | some (entry, entries) =>
      let seen := seen + 1
      if seen = hops then if entry.length = 0 then none else some entry
      else hopsWithin hops n seen entries

/-- The client's address by count: `hops` entries from the right belong to proxies, and the one
before those is the client. -/
def clientByHops (hops : Nat) (fields : List Bytes) : Option Bytes :=
  if hops = 0 then none else hopsWithin hops (bytesOf fields + 1) 0 (Forwarded.init fields)

/-! ## What is handed out -/

/-- Everything that `next` hands out until it has no more. -/
def handedWithin : Nat → Forwarded → List Bytes
  | 0, _ => []
  | n + 1, entries =>
    match entries.next with
    | none => []
    | some (entry, entries) => entry :: handedWithin n entries

def handed (fields : List Bytes) : List Bytes :=
  handedWithin (bytesOf fields + 1) (Forwarded.init fields)

/-- The entries of a field that are handed out: of one that begins with a comma, all but the empty
one in front of it. -/
def walked (field : Bytes) : List Bytes :=
  if field = [] then []
  else if field.head? = some comma then (entriesOf field).tail
  else entriesOf field

/-- What is still to be handed out. -/
def Forwarded.coming (self : Forwarded) : List Bytes :=
  (self.ahead.flatMap walked ++ walked self.rest).reverse

theorem entriesOf_ne_nil (field : Bytes) : entriesOf field ≠ [] := by
  intro h
  exact List.splitOn_ne_nil comma field (List.map_eq_nil_iff.mp h)

theorem walked_last {field : Bytes} {i : Nat} (h : lastIndexOf comma field = some i) :
    walked field = walked (field.take i) ++ [trimBlanks (field.drop (i + 1))] := by
  have hsplit := entriesOf_last h
  obtain ⟨heq, -⟩ := Text.lastIndexOf_some h
  have hne : field ≠ [] := by
    rintro rfl
    cases h
  cases i with
  | zero =>
    have hhead : field.head? = some comma := by
      rw [heq]
      rfl
    rw [walked, if_neg hne, if_pos hhead, hsplit]
    rfl
  | succ i =>
    obtain ⟨x, front, rfl⟩ := List.exists_cons_of_ne_nil hne
    rw [walked, walked, if_neg hne, List.take_succ_cons, if_neg (List.cons_ne_nil _ _),
      List.head?_cons, List.head?_cons, hsplit, List.take_succ_cons]
    split_ifs
    · exact List.tail_append_of_ne_nil (entriesOf_ne_nil _)
    · rfl

theorem walked_one {field : Bytes} (hne : field ≠ []) (h : lastIndexOf comma field = none) :
    walked field = [trimBlanks field] := by
  have hhead : field.head? ≠ some comma := by
    intro hhead
    exact Text.lastIndexOf_none h (List.mem_of_mem_head? hhead)
  rw [walked, if_neg hne, if_neg hhead, entriesOf_one h]

theorem Forwarded.coming_takeUp {self : Forwarded} (hrest : self.rest = [])
    (h : self.done + 1 < self.fields.length) : self.coming = (self.takeUp h).coming := by
  rw [coming, coming, ahead_takeUp h, hrest, List.flatMap_append, List.flatMap_singleton]
  exact congrArg List.reverse (List.append_nil _)

theorem Forwarded.nextWithin_coming {n : Nat} {self : Forwarded}
    (hn : self.fields.length - self.done < n) :
    match self.nextWithin n with
    | none => self.coming = []
    | some (entry, it) => self.coming = entry :: it.coming ∧ it.size < self.size := by
  cases hnext : self.nextWithin n with
  | none =>
    dsimp only
    induction n generalizing self with
    | zero => cases hn
    | succ n ih =>
      rw [nextWithin] at hnext
      split_ifs at hnext with hrest hdone
      · cases hlast : lastIndexOf comma self.rest with
        | some i =>
          rw [hlast] at hnext
          cases hnext
        | none =>
          rw [hlast] at hnext
          cases hnext
      · have hahead : self.ahead = [] := by
          rw [ahead, show self.fields.length - 1 - self.done = 0 by omega, List.take_zero]
        rw [coming, hahead, List.length_eq_zero_iff.mp (Nat.eq_zero_of_not_pos hrest)]
        rfl
      · have hnil := List.length_eq_zero_iff.mp (Nat.eq_zero_of_not_pos hrest)
        have hlt := Nat.lt_of_not_le hdone
        have hn' : self.fields.length - (self.done + 1) < n := by omega
        rw [coming_takeUp hnil hlt]
        exact @ih (self.takeUp hlt) hn' hnext
  | some got =>
    obtain ⟨entry, it⟩ := got
    refine ⟨?_, (nextWithin_some hn hnext).2⟩
    induction n generalizing self with
    | zero => cases hn
    | succ n ih =>
      rw [nextWithin] at hnext
      split_ifs at hnext with hrest hdone
      · cases hlast : lastIndexOf comma self.rest with
        | some i =>
          rw [hlast] at hnext
          cases hnext
          rw [coming, walked_last hlast, ← List.append_assoc, List.reverse_append]
          rfl
        | none =>
          rw [hlast] at hnext
          cases hnext
          have hne : self.rest ≠ [] := List.ne_nil_of_length_pos hrest
          rw [coming, walked_one hne hlast, List.reverse_append]
          exact congrArg (trimBlanks self.rest :: List.reverse ·) (List.append_nil _).symm
      · have hnil := List.length_eq_zero_iff.mp (Nat.eq_zero_of_not_pos hrest)
        have hlt := Nat.lt_of_not_le hdone
        have hn' : self.fields.length - (self.done + 1) < n := by omega
        rw [coming_takeUp hnil hlt]
        exact @ih (self.takeUp hlt) hn' hnext

theorem Forwarded.next_coming (self : Forwarded) :
    match self.next with
    | none => self.coming = []
    | some (entry, it) => self.coming = entry :: it.coming ∧ it.size < self.size :=
  nextWithin_coming (Nat.lt_succ_self _)

theorem handedWithin_eq {n : Nat} {it : Forwarded} (h : it.size < n) :
    handedWithin n it = it.coming := by
  induction n generalizing it with
  | zero => cases h
  | succ n ih =>
    have hnext := it.next_coming
    rw [handedWithin]
    cases hgot : it.next with
    | none =>
      rw [hgot] at hnext
      exact hnext.symm
    | some got =>
      obtain ⟨entry, it'⟩ := got
      rw [hgot] at hnext
      obtain ⟨hcoming, hsize⟩ := hnext
      dsimp only
      rw [hcoming, ih (by omega)]

/-- The entry at a place of a list counted from 1, if there is one that is not empty. -/
def nth (hops : Nat) (entries : List Bytes) : Option Bytes :=
  if hops = 0 then none else (entries[hops - 1]?).filter fun entry => entry.length ≠ 0

theorem hopsWithin_eq {hops n seen : Nat} {it : Forwarded} (hsize : it.size < n)
    (hseen : seen < hops) : hopsWithin hops n seen it = nth (hops - seen) it.coming := by
  induction n generalizing seen it with
  | zero => cases hsize
  | succ n ih =>
    have hnext := it.next_coming
    have hne : hops - seen ≠ 0 := by omega
    rw [hopsWithin]
    cases hgot : it.next with
    | none =>
      rw [hgot] at hnext
      dsimp only at hnext
      rw [hnext, nth, if_neg hne]
      rfl
    | some got =>
      obtain ⟨entry, it'⟩ := got
      rw [hgot] at hnext
      obtain ⟨hcoming, hless⟩ := hnext
      dsimp only
      rw [hcoming, nth, if_neg hne]
      split_ifs with hhere hempty
      · rw [show hops - seen - 1 = 0 by omega, List.getElem?_cons_zero,
          Option.filter_some_neg (by simpa using hempty)]
      · rw [show hops - seen - 1 = 0 by omega, List.getElem?_cons_zero,
          Option.filter_some_pos (by simpa using hempty)]
      · have hlt : seen + 1 < hops := by omega
        have hne' : hops - (seen + 1) ≠ 0 := by omega
        rw [ih (by omega) hlt, nth, if_neg hne',
          show hops - seen - 1 = hops - (seen + 1) - 1 + 1 by omega, List.getElem?_cons_succ]

theorem coming_init (fields : List Bytes) :
    (Forwarded.init fields).coming = (fields.flatMap walked).reverse := by
  rcases List.eq_nil_or_concat fields with rfl | ⟨front, last, heq⟩
  · rfl
  · rw [List.concat_eq_append] at heq
    subst heq
    have hahead : (Forwarded.init (front ++ [last])).ahead = front := by
      rw [Forwarded.ahead, Forwarded.init]
      simp
    have hrest : (Forwarded.init (front ++ [last])).rest = last := by simp [Forwarded.init]
    rw [Forwarded.coming, hahead, hrest, List.flatMap_append, List.flatMap_singleton]

theorem handed_eq (fields : List Bytes) : handed fields = (fields.flatMap walked).reverse := by
  rw [handed, handedWithin_eq (by rw [(pending_init fields).2]; omega), coming_init]

theorem clientByHops_eq (hops : Nat) (fields : List Bytes) :
    clientByHops hops fields = nth hops (handed fields) := by
  rw [clientByHops]
  split_ifs with hzero
  · rw [nth, if_pos hzero]
  · rw [hopsWithin_eq (by rw [(pending_init fields).2]; omega) (Nat.pos_of_ne_zero hzero),
      coming_init, handed_eq, Nat.sub_zero]

/-! ## The fields as one list -/

def filled (fields : List Bytes) : List Bytes := fields.filter fun field => field ≠ []

/-- The fields that are not empty, as a proxy would have written them in one. -/
def joined (fields : List Bytes) : Bytes := List.intercalate [comma] (filled fields)

theorem entriesOf_append (a b : Bytes) :
    entriesOf (a ++ comma :: b) = entriesOf a ++ entriesOf b := by
  rw [entriesOf, List.splitOn_append_cons_of_beq _ _ (beq_self_eq_true comma), List.map_append]
  rfl

theorem entriesOf_intercalate {fields : List Bytes} (h : fields ≠ []) :
    entriesOf (List.intercalate [comma] fields) = fields.flatMap entriesOf := by
  induction fields with
  | nil => exact absurd rfl h
  | cons field fields ih =>
    cases fields with
    | nil => simp [List.intercalate]
    | cons next fields =>
      rw [List.intercalate_cons_cons, List.flatMap_cons, ← ih (List.cons_ne_nil _ _),
        List.append_assoc, List.singleton_append, entriesOf_append]

theorem flatMap_walked (fields : List Bytes) :
    fields.flatMap walked = (filled fields).flatMap walked := by
  induction fields with
  | nil => rfl
  | cons field fields ih =>
    by_cases hne : field = []
    · subst hne
      exact ih
    · rw [filled, List.filter_cons_of_pos (by simpa using hne), List.flatMap_cons,
        List.flatMap_cons, ih]
      rfl

theorem length_walked (field : Bytes) (hne : field ≠ []) :
    (walked field).length + (if field.head? = some comma then 1 else 0) =
      (entriesOf field).length := by
  have hpos := List.length_pos_of_ne_nil (entriesOf_ne_nil field)
  rw [walked, if_neg hne]
  split_ifs
  · rw [List.length_tail]
    omega
  · rfl

/-- The walk is whole where no field begins with a comma, and only there. -/
theorem walked_whole_iff {fields : List Bytes} (hne : ∀ field ∈ fields, field ≠ []) :
    fields.flatMap walked = fields.flatMap entriesOf ↔
      ∀ field ∈ fields, field.head? ≠ some comma := by
  constructor
  · intro h field hmem hhead
    have hle : ∀ l : List Bytes, (∀ field ∈ l, field ≠ []) →
        (l.flatMap walked).length + l.countP (·.head? = some comma) =
          (l.flatMap entriesOf).length := by
      intro l hl
      induction l with
      | nil => rfl
      | cons x l ih =>
        have hx := length_walked x (hl x List.mem_cons_self)
        have hrest := ih fun y hy => hl y (List.mem_cons_of_mem x hy)
        rw [List.flatMap_cons, List.flatMap_cons, List.length_append, List.length_append,
          List.countP_cons]
        simp only [decide_eq_true_eq]
        omega
    have hcount := hle fields hne
    rw [h] at hcount
    have hzero : fields.countP (·.head? = some comma) = 0 := by omega
    exact absurd (decide_eq_true hhead) (List.countP_eq_zero.mp hzero field hmem)
  · intro h
    refine List.flatMap_congr fun field hmem => ?_
    rw [walked, if_neg (hne field hmem), if_neg (h field hmem)]

/-- The walk hands out the entries of the fields that are not empty, and the count is right, where
no field begins with a comma. -/
theorem walk_iff (fields : List Bytes) :
    (handed fields = ((filled fields).flatMap entriesOf).reverse ∧
      ∀ hops, clientByHops hops fields = nth hops (entriesOf (joined fields)).reverse) ↔
    ∀ field ∈ fields, field.head? ≠ some comma := by
  have hfilled : ∀ field ∈ filled fields, field ≠ [] := by
    intro field hmem
    simpa using (List.mem_filter.mp hmem).2
  have hcond : (∀ field ∈ filled fields, field.head? ≠ some comma) ↔
      ∀ field ∈ fields, field.head? ≠ some comma := by
    refine ⟨fun h field hmem hhead => ?_, fun h field hmem => h field (List.mem_filter.mp hmem).1⟩
    have hne : field ≠ [] := by
      rintro rfl
      cases hhead
    exact h field (List.mem_filter.mpr ⟨hmem, by simpa using hne⟩) hhead
  rw [handed_eq, flatMap_walked, List.reverse_inj, walked_whole_iff hfilled, hcond]
  refine ⟨fun h => h.1, fun h => ⟨h, fun hops => ?_⟩⟩
  have hwhole := (walked_whole_iff hfilled).mpr (hcond.mpr h)
  rw [clientByHops_eq, handed_eq, flatMap_walked, hwhole]
  by_cases hnone : filled fields = []
  · rw [joined, hnone]
    rw [nth, nth]
    split_ifs with hzero
    · rfl
    · cases hops with
      | zero => exact absurd rfl hzero
      | succ hops => cases hops <;> rfl
  · rw [joined, entriesOf_intercalate hnone]

/-- A field of a comma and an address has an empty entry that is not counted. -/
theorem not_walk_leading :
    ¬ (handed [ascii "203.0.113.9", ascii ",10.0.0.4"] =
        ((filled [ascii "203.0.113.9", ascii ",10.0.0.4"]).flatMap entriesOf).reverse ∧
      ∀ hops, clientByHops hops [ascii "203.0.113.9", ascii ",10.0.0.4"] =
        nth hops (entriesOf (joined [ascii "203.0.113.9", ascii ",10.0.0.4"])).reverse) := by
  rintro ⟨-, h⟩
  have hclient : clientByHops 2 [ascii "203.0.113.9", ascii ",10.0.0.4"] =
      some (ascii "203.0.113.9") := by decide
  have hspec : nth 2 (entriesOf (joined [ascii "203.0.113.9", ascii ",10.0.0.4"])).reverse =
      none := by decide
  have htwo := h 2
  rw [hclient, hspec] at htwo
  cases htwo

end Nilo.Proxies
