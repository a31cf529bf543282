import Nilo.Sql.Plan

/-!
# Tables the program does not build (`plan` in `sql/migrate.zig`)

Which tables the steps of a plan touch. A step is written for a managed table of the types, or
drops a table of the snapshot that no Row lists any more; the loop that drops does not ask whether
the snapshot recorded that table as managed. So a plan keeps off the tables the program does not
build exactly while every such table of the snapshot is still listed.
-/

namespace Nilo.Sql

open Text

/-! ## A diff of one table touches that table -/

/-- Every step of the diff is about one table, its indexes and triggers with it. -/
abbrev Diff.On (r : Relation) : Diff → Prop := Diff.All fun s => s.sql.what.touches = some r

/-- No step of the diff is about a table. -/
abbrev Diff.Off : Diff → Prop := Diff.All fun s => s.sql.what.touches = none

open Diff.All

theorem diffRename_on (t old : Desc) (x : Rename) : (diffRename t old x).On t.relation :=
  ite nil (ite (problem _) (step rfl))

theorem diffNewColumn_on (D : Dialect) (t : Desc) (c : Column) :
    (diffNewColumn D t c).On t.relation :=
  ite (problem _) (ite (problem _) (ite (problem _) (ite (problem _) (step rfl))))

theorem diffWords_on (t : Desc) (c was : Column) : (diffWords t c was).On t.relation :=
  append (ite (step rfl) nil) (ite (step rfl) nil)

theorem diffOldColumn_on (D : Dialect) (t : Desc) (c was : Column) :
    (diffOldColumn D t c was).On t.relation := by
  refine append (ite (step rfl) nil) (ite nil (ite (problem _) (ite (problem _) ?_)))
  exact append (append (append (ite (step rfl) nil) (ite (step rfl) nil)) (ite (step rfl) nil))
    (ite (diffWords_on t c was) nil)

theorem diffColumn_on (D : Dialect) (t old : Desc) (renames : List Rename) (c : Column) :
    (diffColumn D t old renames c).On t.relation := by
  unfold diffColumn
  split
  · exact diffNewColumn_on D t c
  · exact diffOldColumn_on D t c _

theorem diffCheck_on (D : Dialect) (t old : Desc) (ck : NamedText) :
    (diffCheck D t old ck).On t.relation :=
  ite nil (ite (problem _) (append (ite (step rfl) nil) (step rfl)))

theorem diffTrigger_on (D : Dialect) (t old : Desc) (early : List Bytes) (tr : NamedText) :
    (diffTrigger D t old early tr).On t.relation :=
  ite nil (append (ite (step rfl) nil) (step rfl))

section Carried

variable {α : Type} (nameOf : α → Bytes) (sameThrough : α → α → Bool)

theorem diffGoneIndex_on (D : Dialect) (t : Desc) (nowList : List α) (renames : List Rename) (o : α) :
    (diffGoneIndex nameOf sameThrough D t nowList renames o).On t.relation := by
  unfold diffGoneIndex
  split
  · exact ite nil (step rfl)
  · exact ite nil (step rfl)

/-- What the type compiled to is about its table. -/
theorem createdFor_touches {t : Desc} {made : ddl.Named} (h : made ∈ (ddl.createdFor t).indexes) :
    made.sql.what.touches = some t.relation := by
  rcases List.mem_append.mp h with h | h
  · obtain ⟨u, _, rfl⟩ := List.mem_map.mp h
    rfl
  · obtain ⟨x, _, rfl⟩ := List.mem_map.mp h
    rfl

theorem sqlFor_touches {t : Desc} {name : Bytes} {sql : Sql} (h : sqlFor t name = some sql) :
    sql.what.touches = some t.relation := by
  obtain ⟨made, hfind, rfl⟩ := Option.map_eq_some_iff.mp h
  exact createdFor_touches (List.mem_of_find?_eq_some hfind)

theorem diffIndex_on (D : Dialect) (t : Desc) (oldList nowList : List α) (renames : List Rename)
    (x : α) : (diffIndex nameOf sameThrough D t oldList nowList renames x).On t.relation := by
  unfold diffIndex
  refine ite nil ?_
  split
  · exact step rfl
  · refine each fun sql hsql => step ?_
    have htouches : sql.what.touches = some t.relation := sqlFor_touches (Option.mem_toList.mp hsql)
    show (if D.canBuildConcurrently then { sql with idents := _ } else sql : Sql).what.touches = _
    split <;> exact htouches

end Carried

theorem diffReference_on (D : Dialect) (t old : Desc) (renames : List Rename) (x : Reference) :
    (diffReference D t old renames x).On t.relation := by
  unfold diffReference
  refine ite nil (ite nil ?_)
  split
  · exact ite (step rfl) nil
  · exact problem _

theorem diffTable_on (D : Dialect) (t old : Desc) : (diffTable D t old).On t.relation := by
  refine append (append (append (append (append (append (append (append (append (append (append
    (append (append ?_ ?_) ?_) ?_) ?_) ?_) ?_) ?_) ?_) ?_) ?_) ?_) ?_) ?_
  · exact each fun x _ => diffRename_on t old x
  · exact each fun o _ => step rfl
  · exact each fun c _ => diffColumn_on D t old _ c
  · exact each fun ck _ => diffCheck_on D t old ck
  · exact each fun o _ => ite nil (ite (problem _) (step rfl))
  · exact each fun tr _ => diffTrigger_on D t old _ tr
  · exact each fun o _ => ite nil (ite nil (step rfl))
  · exact each fun o _ => diffGoneIndex_on _ _ D t _ _ o
  · exact each fun o _ => diffGoneIndex_on _ _ D t _ _ o
  · exact each fun oc _ => ite nil (ite nil (step rfl))
  · exact each fun u _ => diffIndex_on _ _ D t _ _ _ u
  · exact each fun x _ => diffIndex_on _ _ D t _ _ _ x
  · exact each fun x _ => diffReference_on D t old _ x
  · exact each fun o _ => ite nil (ite nil (problem _))

theorem createAll_on (t : Desc) : (createAll t).On t.relation := by
  refine append (append (step rfl) ?_) ?_
  · exact each fun made hmade => step (createdFor_touches hmade)
  · refine each fun made hmade => step ?_
    obtain ⟨tr, _, rfl⟩ := List.mem_map.mp hmade
    rfl

theorem planTable_on (D : Dialect) (before : Doc) (t : Desc) :
    (planTable D before t).On t.relation := by
  unfold planTable
  refine ite nil ?_
  split
  · exact createAll_on t
  · exact diffTable_on D t _

/-! ## Whose tables a plan touches -/

/-- The part of a plan that moves tables. -/
def planTables (D : Dialect) (desired : Desired) (before : Doc) : Diff :=
  .each desired.tables (planTable D before) ++ .each (goneTables desired before) dropTableStep

theorem dropViewStep_off (remade : List (NamedText × Bool)) (old : NamedText) :
    (dropViewStep remade old).Off := by
  unfold dropViewStep
  split
  · exact nil
  · exact step rfl

/-- A step that touches a table is one of the tables' part. -/
theorem mem_planTables {D : Dialect} {desired : Desired} {before : Doc} {s : Step} {r : Relation}
    (hs : s ∈ (planOf D desired before).steps) (ht : s.sql.what.touches = some r) :
    s ∈ (planTables D desired before).steps := by
  by_cases hm : Mismatched D before
  · rw [planOf_mismatched hm] at hs
    cases hs
  have hoff : ∀ {d : Diff}, d.Off → s ∉ d.steps := by
    intro d hd hmem
    have hnone : s.sql.what.touches = none := hd s hmem
    rw [hnone] at ht
    cases ht
  unfold planOf at hs
  rw [if_neg hm] at hs
  simp only [Diff.steps_append, List.mem_append] at hs
  rcases hs with ((((((hs | hs) | hs) | hs) | hs) | hs) | hs) | hs
  · exact absurd hs (hoff (each fun v _ => dropViewStep_off _ v))
  · exact absurd hs (hoff (each fun name _ => ite nil (step rfl)))
  · exact absurd hs (hoff (each fun f _ => ite nil (step rfl)))
  · exact List.mem_append_left _ hs
  · exact List.mem_append_right _ hs
  · exact absurd hs (hoff (each fun v _ => ite nil (step rfl)))
  · exact absurd hs (hoff (each fun f _ => ite nil (step rfl)))
  · exact absurd hs (hoff (each fun name _ => ite nil (step rfl)))

theorem mem_planOf {D : Dialect} {desired : Desired} {before : Doc} {s : Step}
    (hm : ¬ Mismatched D before) (hs : s ∈ (planTables D desired before).steps) :
    s ∈ (planOf D desired before).steps := by
  unfold planOf
  rw [if_neg hm]
  simp only [Diff.steps_append, List.mem_append]
  rcases List.mem_append.mp hs with hs | hs
  · exact .inl (.inl (.inl (.inl (.inr hs))))
  · exact .inl (.inl (.inl (.inr hs)))

/-- What the tables' part is made of: the turns of managed tables, and the drops of tables no Row
lists. -/
theorem mem_planTables_iff {D : Dialect} {desired : Desired} {before : Doc} {s : Step} :
    s ∈ (planTables D desired before).steps ↔
      (∃ t ∈ desired.tables, t.managed = true ∧ s ∈ (planTable D before t).steps) ∨
      ∃ old ∈ before.tables, has desired.tables old = false ∧ s ∈ (dropTableStep old).steps := by
  unfold planTables
  rw [Diff.steps_append, List.mem_append, Diff.mem_steps_each, Diff.mem_steps_each]
  have hleft : (∃ t ∈ desired.tables, s ∈ (planTable D before t).steps) ↔
      ∃ t ∈ desired.tables, t.managed = true ∧ s ∈ (planTable D before t).steps := by
    refine ⟨fun ⟨t, ht, hs⟩ => ⟨t, ht, ?_, hs⟩, fun ⟨t, ht, _, hs⟩ => ⟨t, ht, hs⟩⟩
    by_contra hfalse
    unfold planTable at hs
    rw [if_pos (by simpa using hfalse)] at hs
    cases hs
  rw [hleft]
  simp only [goneTables, List.mem_filter, List.mem_reverse, Bool.not_eq_true', and_assoc]

theorem has_iff {desired : List Desc} {old : Desc} :
    has desired old ↔ ∃ t ∈ desired, t.relation = old.relation := by
  simp [has, List.any_eq_true]

/-- A table the program does not build: the types list it as not managed, or the snapshot records
it as not managed and the types no longer list it. -/
def Foreign (desired : Desired) (before : Doc) (r : Relation) : Prop :=
  (∃ t ∈ desired.tables, t.relation = r ∧ t.managed = false) ∨
    (∃ old ∈ before.tables, old.relation = r ∧ old.managed = false) ∧
      ∀ t ∈ desired.tables, t.relation ≠ r

/-- No step of a plan creates, alters or drops a table the program does not build. -/
def KeepsOff (desired : Desired) (before : Doc) (p : Diff) : Prop :=
  ∀ s ∈ p.steps, ∀ r, s.sql.what.touches = some r → ¬ Foreign desired before r

/-- Every table the snapshot records as not managed is still listed. -/
def StillListed (desired : Desired) (before : Doc) : Prop :=
  ∀ old ∈ before.tables, old.managed = false → ∃ t ∈ desired.tables, t.relation = old.relation

/-- Where two Rows list one table, one as managed and one not, the managed one has nothing to
change about the table the snapshot records. -/
def NothingToChange (D : Dialect) (desired : Desired) (before : Doc) : Prop :=
  ∀ t ∈ desired.tables, t.managed = true →
    (∃ t' ∈ desired.tables, t'.relation = t.relation ∧ t'.managed = false) →
      ∃ old, before.table t.relation = some old ∧ (diffTable D t old).steps = []

theorem planTable_steps_nil {D : Dialect} {before : Doc} {t : Desc} (hm : t.managed = true) :
    (planTable D before t).steps = [] ↔
      ∃ old, before.table t.relation = some old ∧ (diffTable D t old).steps = [] := by
  unfold planTable
  rw [if_neg (by simp [hm])]
  cases hold : before.table t.relation with
  | none => simp [createAll]
  | some old => simp

theorem keepsOff_of {D : Dialect} {desired : Desired} {before : Doc}
    (hlisted : StillListed desired before) (hnothing : NothingToChange D desired before) :
    KeepsOff desired before (planOf D desired before) := by
  intro s hs r hr hforeign
  rcases mem_planTables_iff.mp (mem_planTables hs hr) with ⟨t, ht, hmanaged, hs⟩ | ⟨old, hold, hhas, hs⟩
  · have hrel : t.relation = r := Option.some.inj ((planTable_on D before t s hs).symm.trans hr)
    rcases hforeign with ⟨t', ht', hrel', hoff⟩ | ⟨_, hnot⟩
    · have hnil := (planTable_steps_nil hmanaged).mpr
        (hnothing t ht hmanaged ⟨t', ht', hrel'.trans hrel.symm, hoff⟩)
      rw [hnil] at hs
      cases hs
    · exact hnot t ht hrel
  · -- A drop: nothing in the types lists the table, so it is the snapshot that would call it foreign.
    have hunlisted : ¬ ∃ t ∈ desired.tables, t.relation = old.relation := by
      intro h
      rw [has_iff.mpr h] at hhas
      cases hhas
    rw [dropTableStep, Diff.steps_step, List.mem_singleton] at hs
    rw [hs] at hr
    have hrel : old.relation = r := Option.some.inj hr
    rcases hforeign with ⟨t, ht, hrel', _⟩ | ⟨⟨old', hold', hrel', hoff⟩, _⟩
    · exact hunlisted ⟨t, ht, hrel'.trans hrel.symm⟩
    · obtain ⟨t, ht, h⟩ := hlisted old' hold' hoff
      exact hunlisted ⟨t, ht, h.trans (hrel'.trans hrel.symm)⟩

theorem stillListed_of {D : Dialect} {desired : Desired} {before : Doc} (hm : ¬ Mismatched D before)
    (h : KeepsOff desired before (planOf D desired before)) : StillListed desired before := by
  intro old hold hoff
  by_contra hunlisted
  have hhas : has desired.tables old = false := by
    cases hhas : has desired.tables old with
    | false => rfl
    | true => exact absurd (has_iff.mp hhas) hunlisted
  have hmem := mem_planOf hm (mem_planTables_iff.mpr
    (.inr ⟨old, hold, hhas, List.mem_singleton.mpr rfl⟩))
  refine h _ hmem old.relation rfl (.inr ⟨⟨old, hold, rfl, hoff⟩, fun t ht hrel => ?_⟩)
  exact hunlisted ⟨t, ht, hrel⟩

theorem nothingToChange_of {D : Dialect} {desired : Desired} {before : Doc}
    (hm : ¬ Mismatched D before) (h : KeepsOff desired before (planOf D desired before)) :
    NothingToChange D desired before := by
  rintro t ht hmanaged ⟨t', ht', hrel, hoff⟩
  refine (planTable_steps_nil hmanaged).mp (List.eq_nil_iff_forall_not_mem.mpr fun s hs => ?_)
  have hmem := mem_planOf hm (mem_planTables_iff.mpr (.inl ⟨t, ht, hmanaged, hs⟩))
  exact h s hmem t.relation (planTable_on D before t s hs) (.inl ⟨t', ht', hrel, hoff⟩)

/-- A plan keeps off the tables the program does not build exactly when every table the snapshot
records as not managed is still listed by the types, and where two Rows list one table, one as
managed and one not, the managed one has nothing to change. -/
theorem plan_keepsOff_iff {D : Dialect} {desired : Desired} {before : Doc} {p : Diff}
    (h : plan D desired before = .ok p) :
    KeepsOff desired before p ↔
      Mismatched D before ∨ StillListed desired before ∧ NothingToChange D desired before := by
  rw [plan_ok h]
  constructor
  · intro hkeeps
    by_cases hm : Mismatched D before
    · exact .inl hm
    · exact .inr ⟨stillListed_of hm hkeeps, nothingToChange_of hm hkeeps⟩
  · rintro (hm | ⟨hlisted, hnothing⟩)
    · intro s hs
      rw [planOf_mismatched hm] at hs
      cases hs
    · exact keepsOff_of hlisted hnothing

/-- A table this program reads and does not build. -/
def staff : Desc where
  table := ascii "staff"
  keys := [ascii "id"]
  columns := [{ name := ascii "id", sqlType := ascii "int8", key := true, generated := true }]
  managed := false

/-- A table it builds, pointing at the other. -/
def comment : Desc where
  table := ascii "comments"
  keys := [ascii "id"]
  columns :=
    [{ name := ascii "id", sqlType := ascii "int8", key := true, generated := true },
      { name := ascii "staff_id", sqlType := ascii "int8" }]
  references :=
    [{ name := ascii "comments_staff_id_fkey", columns := [ascii "staff_id"], table := ascii "staff",
       targets := [ascii "id"] }]

/-- A first Row beside one the program only reads: the plan makes the one and keeps off the other. -/
theorem plan_keepsOff_staff :
    ∃ p, plan .postgres { tables := [staff, comment] } (snapshotOf .postgres 1 { tables := [staff] }) = .ok p ∧
      p.steps.length = 1 ∧
      KeepsOff { tables := [staff, comment] } (snapshotOf .postgres 1 { tables := [staff] }) p := by
  have hplan : plan .postgres { tables := [staff, comment] }
      (snapshotOf .postgres 1 { tables := [staff] }) = .ok (createAll comment) := by
    decide
  refine ⟨_, hplan, by decide, (plan_keepsOff_iff hplan).mpr (.inr ⟨?_, ?_⟩)⟩
  · intro old hold _
    rw [show (snapshotOf .postgres 1 { tables := [staff] }).tables = [staff.recorded] from rfl,
      List.mem_singleton] at hold
    exact ⟨staff, List.mem_cons_self, by rw [hold]; rfl⟩
  · intro t ht hmanaged hother
    obtain ⟨t', ht', hrel, hoff⟩ := hother
    rcases List.mem_pair.mp ht with rfl | rfl
    · cases hmanaged
    · rcases List.mem_pair.mp ht' with rfl | rfl
      · exact absurd hrel (by decide)
      · cases hoff

/-- The Row of a table the program only read is deleted: the plan drops the table. -/
theorem plan_drops_staff :
    ¬ ∀ (D : Dialect) (desired : Desired) (before : Doc) (p : Diff), plan D desired before = .ok p →
      KeepsOff desired before p := by
  intro h
  have hplan : plan .postgres { tables := [] } (snapshotOf .postgres 1 { tables := [staff] }) =
      .ok (dropTableStep staff.recorded) := by
    decide
  have hkeeps := h _ _ _ _ hplan
  refine hkeeps _ (List.mem_singleton.mpr rfl) staff.relation rfl
    (.inr ⟨⟨staff.recorded, List.mem_singleton.mpr rfl, rfl, rfl⟩, ?_⟩)
  intro t ht
  cases ht

end Nilo.Sql
