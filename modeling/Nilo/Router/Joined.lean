import Nilo.Router.Match

/-!
# Segments joined by slashes

A path that is made of segments splits into them again (`segmentsIn_behind`, `segmentsIn_join`): a
slash at its end is not another segment, so of several segments an empty one at the end is lost.
-/

namespace Nilo.Routing

open Text (Bytes)

/-- What may stand behind a segment: nothing, or the slash of the next. -/
def Ends (rest : Bytes) : Prop := rest = [] ∨ rest.head? = some slash

variable {seg pattern text : Bytes} {ps : List Bytes}

theorem segmentsIn_ne_nil (path : Bytes) : segmentsIn path ≠ [] := List.splitOn_ne_nil slash _

theorem intercalate_concat (hne : ps ≠ []) :
    [slash].intercalate (ps ++ [seg]) = [slash].intercalate ps ++ slash :: seg := by
  induction ps with
  | nil => exact absurd rfl hne
  | cons first ps ih =>
    cases ps with
    | nil =>
      rw [List.singleton_append, List.intercalate_cons_cons, List.intercalate_singleton,
        List.intercalate_singleton, List.append_assoc]
      rfl
    | cons next ps =>
      have hrest := ih (List.cons_ne_nil next ps)
      rw [List.cons_append] at hrest
      rw [List.cons_append, List.cons_append, List.intercalate_cons_cons, hrest,
        List.intercalate_cons_cons]
      simp only [List.append_assoc]

theorem trimSlashes_behind (text : Bytes) : trimSlashes (slash :: (text ++ [slash])) = text := by
  rw [trimSlashes, List.head?_cons, if_pos rfl, List.tail_cons]
  rw [List.getLast?_concat, if_pos rfl, List.dropLast_concat]

theorem trimSlashes_whole (h : text.getLast? ≠ some slash) : trimSlashes (slash :: text) = text := by
  rw [trimSlashes, List.head?_cons, if_pos rfl, List.tail_cons]
  exact if_neg h

/-- Joined segments end in a slash where the last of several is empty. -/
theorem getLast_intercalate (h : ∀ seg ∈ ps, slash ∉ seg) :
    ([slash].intercalate ps).getLast? = some slash ↔ ∃ l, l ≠ [] ∧ ps = l ++ [[]] := by
  rcases List.eq_nil_or_concat ps with rfl | ⟨l, seg, rfl⟩
  · exact ⟨nofun, fun ⟨l, _, hl⟩ => absurd hl.symm (List.append_ne_nil_of_right_ne_nil l (List.cons_ne_nil _ _))⟩
  · rw [List.concat_eq_append] at h ⊢
    have hseg : slash ∉ seg := h seg (List.mem_append_right l List.mem_cons_self)
    cases l with
    | nil =>
      rw [List.nil_append, List.intercalate_singleton]
      constructor
      · intro hlast
        exact absurd (List.mem_of_getLast? hlast) hseg
      · rintro ⟨l, hl, heq⟩
        have hlength := congrArg List.length heq
        rw [List.length_append, List.length_singleton, List.length_singleton] at hlength
        exact absurd (List.eq_nil_of_length_eq_zero (by omega)) hl
    | cons first l =>
      rw [intercalate_concat (List.cons_ne_nil first l), List.getLast?_append, List.getLast?_cons,
        Option.some_or, Option.some.injEq]
      cases hlast : seg.getLast? with
      | none =>
        obtain rfl := List.getLast?_eq_none_iff.mp hlast
        exact ⟨fun _ => ⟨first :: l, List.cons_ne_nil first l, rfl⟩, fun _ => rfl⟩
      | some ch =>
        have hch := List.mem_of_getLast? hlast
        constructor
        · rintro rfl
          exact absurd hch hseg
        · rintro ⟨l', -, heq⟩
          rw [List.singleton_inj.mp (List.append_inj' heq rfl).2] at hch
          cases hch

/-- What a path of these segments splits into. -/
theorem segmentsIn_join (h : ∀ seg ∈ ps, slash ∉ seg) (hne : ps ≠ []) :
    segmentsIn (slash :: [slash].intercalate ps) = ps ∨
      ∃ l, l ≠ [] ∧ ps = l ++ [[]] ∧ segmentsIn (slash :: [slash].intercalate ps) = l := by
  by_cases hlast : ([slash].intercalate ps).getLast? = some slash
  · obtain ⟨l, hl, rfl⟩ := (getLast_intercalate h).mp hlast
    refine .inr ⟨l, hl, rfl, ?_⟩
    rw [intercalate_concat hl, segmentsIn, trimSlashes_behind, pieces]
    exact List.splitOn_intercalate slash (fun seg hseg => h seg (List.mem_append_left _ hseg)) hl
  · refine .inl ?_
    rw [segmentsIn, trimSlashes_whole hlast, pieces]
    exact List.splitOn_intercalate slash h hne

theorem segmentsIn_behind (h : ∀ seg ∈ ps, slash ∉ seg) (hne : ps ≠ []) :
    segmentsIn (slash :: ([slash].intercalate ps ++ [slash])) = ps := by
  rw [segmentsIn, trimSlashes_behind, pieces]
  exact List.splitOn_intercalate slash h hne

/-- A pattern is its segments behind a slash, and perhaps one more slash; without one it does not
end in an empty segment, unless that is all of it. -/
theorem pattern_eq (h : pattern.head? = some slash) : ∃ behind,
    pattern = slash :: ([slash].intercalate (segmentsIn pattern) ++ behind) ∧
      (behind = [slash] ∨ behind = [] ∧ ∀ l, l ≠ [] → segmentsIn pattern ≠ l ++ [[]]) := by
  obtain ⟨tail, rfl⟩ := List.head?_eq_some_iff.mp h
  by_cases hlast : tail.getLast? = some slash
  · obtain ⟨text, rfl⟩ := List.getLast?_eq_some_iff.mp hlast
    refine ⟨[slash], ?_, .inl rfl⟩
    rw [segmentsIn, trimSlashes_behind, pieces, List.intercalate_splitOn]
  · have hjoin : [slash].intercalate (segmentsIn (slash :: tail)) = tail := by
      rw [segmentsIn, trimSlashes_whole hlast, pieces, List.intercalate_splitOn]
    refine ⟨[], by rw [hjoin, List.append_nil], .inr ⟨rfl, fun l hl heq => hlast ?_⟩⟩
    rw [← hjoin, heq, intercalate_concat hl, List.getLast?_concat]

theorem slash_not_mem (text : Bytes) : ∀ seg ∈ pieces text, slash ∉ seg := by
  induction text with
  | nil =>
    intro seg hseg
    rw [pieces, List.splitOn_nil, List.mem_singleton] at hseg
    rw [hseg]
    exact List.not_mem_nil
  | cons ch text ih =>
    intro seg hseg
    rw [pieces, List.splitOn_cons_eq_if_modifyHead] at hseg
    split_ifs at hseg with hch
    · rcases List.mem_cons.mp hseg with rfl | hseg
      · exact List.not_mem_nil
      · exact ih seg hseg
    · obtain ⟨first, rest, hsplit⟩ := List.exists_cons_of_ne_nil (List.splitOn_ne_nil slash text)
      rw [pieces, hsplit] at ih
      rw [hsplit, List.modifyHead_cons] at hseg
      rcases List.mem_cons.mp hseg with rfl | hseg
      · intro hmem
        rcases List.mem_cons.mp hmem with rfl | hmem
        · exact hch (beq_self_eq_true _)
        · exact ih first List.mem_cons_self hmem
      · exact ih seg (List.mem_cons_of_mem first hseg)

/-- A segment stands in the path with a slash or nothing behind it. -/
theorem exists_intercalate (h : seg ∈ ps) :
    ∃ before rest, Ends rest ∧ [slash].intercalate ps = before ++ (seg ++ rest) := by
  induction ps with
  | nil => cases h
  | cons first ps ih =>
    cases ps with
    | nil =>
      obtain rfl := List.mem_singleton.mp h
      exact ⟨[], [], .inl rfl, by rw [List.intercalate_singleton, List.append_nil, List.nil_append]⟩
    | cons next ps =>
      rw [List.intercalate_cons_cons]
      rcases List.mem_cons.mp h with rfl | hmem
      · exact ⟨[], [slash] ++ [slash].intercalate (next :: ps), .inr rfl, by
          simp only [List.append_assoc, List.nil_append]⟩
      · obtain ⟨before, rest, hends, heq⟩ := ih hmem
        exact ⟨first ++ [slash] ++ before, rest, hends, by rw [heq, List.append_assoc _ before]⟩

end Nilo.Routing
