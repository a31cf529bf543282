import Nilo.Sql.Plan
import Nilo.Sql.Checked
import Nilo.Lib.Keyed

/-!
# Generating twice (`plan` after `snapshotOf` in `sql/migrate.zig`)

When a diff is empty. Table by table it is so exactly when the types and the snapshot name the same
objects and each compares as the same; a schema whose entries of one name agree with each other
meets that against its own snapshot.
-/

namespace Nilo.Sql

open Text

/-! ## Without renames -/

@[simp] theorem columnBefore_nil (old : Desc) (name : Bytes) :
    columnBefore old name [] = old.column name := by
  unfold columnBefore
  cases old.column name <;> rfl

@[simp] theorem sameColumnsThrough_nil (was now : List Bytes) :
    sameColumnsThrough was now [] = (was == now) := by
  have hid : renamedTo [] = id := rfl
  rw [sameColumnsThrough, hid, List.map_id]

@[simp] theorem whereThrough_nil (where_ : Bytes) : whereThrough where_ [] = where_ := rfl

section Carried

variable {α : Type} (nameOf : α → Bytes) (sameThrough : α → α → Bool)

@[simp] theorem carried_nil (can : Bool) (oldList nowList : List α) (x : α) :
    carried nameOf sameThrough can oldList nowList x [] = none := by
  simp [carried, carriedFrom]

@[simp] theorem renamedIn_nil (o : α) (nowList : List α) : renamedIn sameThrough o nowList [] = false :=
  rfl

end Carried

theorem exists_of_any {α : Type} {o : Option α} {p : α → Bool} (h : o.any p) : ∃ x, o = some x ∧ p x := by
  cases o with
  | none => cases h
  | some x => exact ⟨x, rfl, h⟩

theorem column_name {t : Desc} {name : Bytes} {c : Column} (h : t.column name = some c) :
    c.name = name := by
  simpa using List.find?_some h

theorem column_mem {t : Desc} {name : Bytes} {c : Column} (h : t.column name = some c) :
    c ∈ t.columns :=
  List.mem_of_find?_eq_some h

/-! ## When each diff is empty -/

theorem diffRename_isEmpty {t old : Desc} {r : Rename} :
    (diffRename t old r).isEmpty ↔ old.column r.from_ = none := by
  unfold diffRename
  cases old.column r.from_ with
  | none => simp
  | some c => cases old.column r.to_ <;> simp

theorem diffNewColumn_isEmpty (D : Dialect) (t : Desc) (c : Column) :
    (diffNewColumn D t c).isEmpty = false := by
  unfold diffNewColumn
  split_ifs <;> rfl

theorem sameWords_nil : sameWords [] [] = true := rfl

theorem diffWords_isEmpty {t : Desc} {c was : Column} :
    (diffWords t c was).isEmpty ↔ was.values = [] ∧ c.values = [] := by
  unfold diffWords
  cases was.values <;> cases c.values <;> simp

/-- A column found under its own name: nothing to do exactly when it compares as the same. -/
theorem diffOldColumn_isEmpty {D : Dialect} {t : Desc} {c was : Column} (hname : was.name = c.name)
    (hc : c.checkNamed → 0 < c.values.length) (hwas : was.checkNamed → 0 < was.values.length) :
    (diffOldColumn D t c was).isEmpty ↔ c.sameAs was := by
  unfold diffOldColumn
  rw [if_neg (by simp [hname]), Diff.isEmpty_append]
  by_cases hsame : c.sameAs was
  · simp [hsame]
  rw [if_neg hsame]
  by_cases hkey : c.key ≠ was.key ∨ c.generated ≠ was.generated
  · simp [hsame, hkey]
  rw [if_neg hkey]
  refine ⟨fun h => ?_, fun h => absurd h hsame⟩
  -- Something moved, and each thing that can is a Problem or a step.
  exfalso
  have hmoved : ¬ (c.sqlType = was.sqlType ∧ c.nullable = was.nullable ∧ c.default = was.default ∧
      sameWords c.values was.values = true ∧ c.check = was.check) := by
    rintro ⟨h1, h2, h3, h4, h5⟩
    push Not at hkey
    exact hsame (by simp [Column.sameAs, h1, h2, h3, h4, h5, hkey.1, hkey.2])
  have hcheck : c.values = [] → was.values = [] → c.check = was.check := by
    intro h1 h2
    have hc0 : c.check = [] := by
      by_contra hne
      have := hc (by simpa [Column.checkNamed] using List.length_pos_iff.mpr hne)
      simp [h1] at this
    have hw0 : was.check = [] := by
      by_contra hne
      have := hwas (by simpa [Column.checkNamed] using List.length_pos_iff.mpr hne)
      simp [h2] at this
    rw [hc0, hw0]
  rw [Diff.isEmpty_nil, Bool.true_and] at h
  dsimp only at h
  split at h
  · cases h
  simp only [Diff.isEmpty_append, Bool.and_eq_true] at h
  obtain ⟨⟨⟨h1, h2⟩, h3⟩, h4⟩ := h
  have htype : c.sqlType = was.sqlType := by simpa using (Diff.isEmpty_ite rfl).mp h1
  have hnull : c.nullable = was.nullable := by simpa using (Diff.isEmpty_ite rfl).mp h2
  have hdefault : c.default = was.default := by simpa using (Diff.isEmpty_ite rfl).mp h3
  by_cases hwords : (!sameWords c.values was.values ||
      c.check != was.check && (decide (0 < c.values.length) || decide (0 < was.values.length))) = true
  · rw [if_pos hwords] at h4
    obtain ⟨hw, hc0⟩ := diffWords_isEmpty.mp h4
    rw [hw, hc0] at hwords
    simp [sameWords_nil] at hwords
  · simp only [Bool.or_eq_true, Bool.and_eq_true, Bool.not_eq_true', bne_iff_ne, decide_eq_true_eq,
      not_or, not_and, Bool.not_eq_false] at hwords
    refine hmoved ⟨htype, hnull, hdefault, hwords.1, ?_⟩
    by_contra hne
    obtain ⟨hc0, hw0⟩ := hwords.2 hne
    exact hne (hcheck (List.length_eq_zero_iff.mp (by omega)) (List.length_eq_zero_iff.mp (by omega)))

theorem diffColumn_isEmpty {D : Dialect} {t old : Desc} (ht : t.Checked) (ho : old.Checked)
    {c : Column} (hc : c ∈ t.columns) :
    (diffColumn D t old [] c).isEmpty ↔ (old.column c.name).any (c.sameAs ·) := by
  unfold diffColumn
  rw [columnBefore_nil]
  cases hold : old.column c.name with
  | none => simp [diffNewColumn_isEmpty]
  | some was =>
    simpa using diffOldColumn_isEmpty (column_name hold) (ht.words c hc) (ho.words was (column_mem hold))

theorem diffGoneColumn_isEmpty {t : Desc} {oc : Column} :
    (diffGoneColumn t [] oc).isEmpty ↔ (t.column oc.name).isSome :=
  Diff.isEmpty_unless rfl

theorem diffCheck_isEmpty {D : Dialect} {t old : Desc} {ck : NamedText} :
    (diffCheck D t old ck).isEmpty ↔
      (findByName NamedText.name old.checks ck.name).any (·.sameAs ck) := by
  refine Diff.isEmpty_unless ?_
  split_ifs <;> simp

theorem diffGoneCheck_isEmpty {D : Dialect} {t : Desc} {o : NamedText} :
    (diffGoneCheck D t o).isEmpty ↔ (findByName NamedText.name t.checks o.name).isSome := by
  refine Diff.isEmpty_unless ?_
  split_ifs <;> rfl

theorem diffTrigger_isEmpty {D : Dialect} {t old : Desc} {tr : NamedText} :
    (diffTrigger D t old [] tr).isEmpty ↔
      (findByName NamedText.name old.triggers tr.name).any (·.sameAs tr) := by
  refine Diff.isEmpty_unless ?_
  split_ifs <;> simp

theorem diffGoneTrigger_isEmpty {D : Dialect} {t : Desc} {o : NamedText} :
    (diffGoneTrigger D t [] o).isEmpty ↔ (findByName NamedText.name t.triggers o.name).isSome :=
  Diff.isEmpty_unless rfl

section Carried

variable {α : Type} {nameOf : α → Bytes} {sameThrough : α → α → Bool} {D : Dialect} {t : Desc}

theorem diffGoneIndex_isEmpty {nowList : List α} {o : α} :
    (diffGoneIndex nameOf sameThrough D t nowList [] o).isEmpty ↔
      (findByName nameOf nowList (nameOf o)).any (sameThrough o ·) := by
  unfold diffGoneIndex
  cases findByName nameOf nowList (nameOf o) with
  | none => simp
  | some now => by_cases h : sameThrough o now <;> simp [h]

/-- The statement for a name of the table's own is always there. -/
theorem sqlFor_isSome {name : Bytes} (h : name ∈ indexNames t) : ∃ sql, sqlFor t name = some sql := by
  have hfind : ((ddl.createdFor t).indexes.find? (·.name == name)).isSome := by
    rw [List.find?_isSome]
    rcases List.mem_append.mp h with h | h
    · obtain ⟨u, hu, rfl⟩ := List.mem_map.mp h
      exact ⟨_, List.mem_append_left _ (List.mem_map_of_mem hu), by simp⟩
    · obtain ⟨x, hx, rfl⟩ := List.mem_map.mp h
      exact ⟨_, List.mem_append_right _ (List.mem_map_of_mem hx), by simp⟩
  obtain ⟨made, hmade⟩ := Option.isSome_iff_exists.mp hfind
  exact ⟨made.sql, by rw [sqlFor, hmade]; rfl⟩

theorem diffIndex_isEmpty {oldList nowList : List α} {x : α} (hx : nameOf x ∈ indexNames t) :
    (diffIndex nameOf sameThrough D t oldList nowList [] x).isEmpty ↔
      (findByName nameOf oldList (nameOf x)).any (sameThrough · x) := by
  obtain ⟨sql, hsql⟩ := sqlFor_isSome hx
  refine Diff.isEmpty_unless ?_
  rw [carried_nil]
  simp [hsql, Diff.each]

end Carried

theorem diffGoneReference_isEmpty {t : Desc} {o : Reference} :
    (diffGoneReference t [] o).isEmpty ↔ (findByName Reference.name t.references o.name).isSome :=
  Diff.isEmpty_unless rfl

/-- A key over columns the snapshot has: not the key of a new column. -/
theorem diffReference_isEmpty {D : Dialect} {t old : Desc} {r : Reference}
    (hr : old.HasColumns r.columns) (hpos : 0 < r.columns.length) :
    (diffReference D t old [] r).isEmpty ↔
      (findByName Reference.name old.references r.name).any (sameReferenceThrough [] · r) := by
  refine Diff.isEmpty_unless ?_
  have hhead : (columnBefore old (r.columns.headD []) []).isNone = false := by
    rw [columnBefore_nil]
    obtain ⟨c, rest, hcols⟩ := List.exists_cons_of_length_pos hpos
    have := hr c (by simp [hcols])
    rw [hcols]
    simpa using this
  rw [hhead, carried_nil]
  simp

/-! ## One table -/

/-- Two lists of named objects that name the same ones, each comparing as the same. -/
structure SameNamed {α : Type} (nameOf : α → Bytes) (same : α → α → Bool) (now old : List α) : Prop where
  found : ∀ x ∈ now, (findByName nameOf old (nameOf x)).any (same · x)
  kept : ∀ o ∈ old, (findByName nameOf now (nameOf o)).isSome

/-- What the types say of a table is what is recorded of it. -/
structure Settled (t old : Desc) : Prop where
  /-- Every `.was` is spent. -/
  renames : ∀ r ∈ t.renames, old.column r.from_ = none
  columns : ∀ c ∈ t.columns, (old.column c.name).any (c.sameAs ·)
  gone : ∀ o ∈ old.columns, (t.column o.name).isSome
  checks : SameNamed NamedText.name NamedText.sameAs t.checks old.checks
  triggers : SameNamed NamedText.name NamedText.sameAs t.triggers old.triggers
  uniques : SameNamed Unique.name (sameUniqueThrough []) t.uniques old.uniques
  indexes : SameNamed Index.name (sameIndexThrough []) t.indexes old.indexes
  references : SameNamed Reference.name (sameReferenceThrough []) t.references old.references

theorem renamesOf_nil {t old : Desc} (h : ∀ r ∈ t.renames, old.column r.from_ = none) :
    renamesOf t old = [] := by
  refine List.filter_eq_nil_iff.mpr fun r hr => ?_
  simp [h r hr]

theorem retypedOf_nil {D : Dialect} {t old : Desc}
    (h : ∀ c ∈ t.columns, (old.column c.name).any (c.sameAs ·)) : retypedOf D t old [] = [] := by
  unfold retypedOf
  split
  · rfl
  refine List.map_eq_nil_iff.mpr (List.filter_eq_nil_iff.mpr fun c hc => ?_)
  rw [columnBefore_nil]
  obtain ⟨was, hwas, hsame⟩ := exists_of_any (h c hc)
  simp only [Column.sameAs, Bool.and_eq_true, beq_iff_eq] at hsame
  simp [hwas, hsame]

theorem findByName_self {α : Type} {nameOf : α → Bytes} {list : List α} (hn : (list.map nameOf).Nodup)
    {x : α} (hx : x ∈ list) : findByName nameOf list (nameOf x) = some x :=
  Lib.find?_key hn hx

theorem findByName_some {α : Type} {nameOf : α → Bytes} {list : List α} {name : Bytes} {x : α}
    (h : findByName nameOf list name = some x) : x ∈ list ∧ nameOf x = name :=
  ⟨List.mem_of_find?_eq_some h, by simpa using List.find?_some h⟩

/-- Of lists with distinct names, an old object is found as the same one it is the old one of. -/
theorem SameNamed.back {α : Type} {nameOf : α → Bytes} {same : α → α → Bool} {now old : List α}
    (h : SameNamed nameOf same now old) (hold : (old.map nameOf).Nodup) {o : α} (ho : o ∈ old) :
    (findByName nameOf now (nameOf o)).any (same o ·) := by
  obtain ⟨x, hx⟩ := Option.isSome_iff_exists.mp (h.kept o ho)
  obtain ⟨hmem, hname⟩ := findByName_some hx
  have hfound := h.found x hmem
  rw [hname, findByName_self hold ho] at hfound
  rw [hx]
  exact hfound

theorem Desc.Checked.uniqueNames {t : Desc} (h : t.Checked) : (t.uniques.map Unique.name).Nodup :=
  (List.nodup_append.mp (List.nodup_append.mp (List.nodup_append.mp (List.nodup_append.mp
    h.names).1).1).1).1

theorem Desc.Checked.indexNames {t : Desc} (h : t.Checked) : (t.indexes.map Index.name).Nodup :=
  (List.nodup_append.mp (List.nodup_append.mp (List.nodup_append.mp (List.nodup_append.mp
    h.names).1).1).1).2.1

theorem Desc.Checked.referenceNames {t : Desc} (h : t.Checked) :
    (t.references.map Reference.name).Nodup :=
  (List.nodup_append.mp (List.nodup_append.mp (List.nodup_append.mp h.names).1).1).2.1

theorem Desc.Checked.checkNames {t : Desc} (h : t.Checked) : (t.checks.map NamedText.name).Nodup :=
  (List.nodup_append.mp (List.nodup_append.mp h.names).1).2.1

/-- A key's columns are there where every column of the table is. -/
theorem hasColumns_of {t old : Desc} (ht : t.Checked)
    (h : ∀ c ∈ t.columns, (old.column c.name).any (c.sameAs ·)) {r : Reference} (hr : r ∈ t.references) :
    old.HasColumns r.columns := by
  intro name hname
  obtain ⟨c, hc⟩ := Option.isSome_iff_exists.mp ((ht.references r hr).1 name hname)
  obtain ⟨was, hwas, _⟩ := exists_of_any (h c (column_mem hc))
  rw [column_name hc] at hwas
  rw [hwas]
  rfl

/-- A table has nothing to do and nothing refused exactly when it is settled. -/
theorem diffTable_isEmpty {D : Dialect} {t old : Desc} (ht : t.Checked) (ho : old.Checked) :
    (diffTable D t old).isEmpty ↔ Settled t old := by
  simp only [diffTable, Diff.isEmpty_append, Bool.and_eq_true, Diff.isEmpty_each]
  constructor
  · rintro ⟨⟨⟨⟨⟨⟨⟨⟨⟨⟨⟨⟨⟨hrename, _⟩, hcolumn⟩, hcheck⟩, hgoneCheck⟩, htrigger⟩, hgoneTrigger⟩,
      hgoneUnique⟩, hgoneIndex⟩, hgone⟩, hunique⟩, hindex⟩, hreference⟩, hgoneReference⟩
    have hrenames : ∀ r ∈ t.renames, old.column r.from_ = none :=
      fun r hr => diffRename_isEmpty.mp (hrename r hr)
    rw [renamesOf_nil hrenames] at *
    have hcolumns : ∀ c ∈ t.columns, (old.column c.name).any (c.sameAs ·) :=
      fun c hc => (diffColumn_isEmpty ht ho hc).mp (hcolumn c hc)
    have hearly : earlyTriggers t old (retypedOf D t old []) = [] := by
      rw [retypedOf_nil hcolumns]
      rfl
    rw [hearly] at htrigger hgoneTrigger
    refine ⟨hrenames, hcolumns, fun o h => diffGoneColumn_isEmpty.mp (hgone o h), ⟨?_, ?_⟩, ⟨?_, ?_⟩,
      ⟨?_, ?_⟩, ⟨?_, ?_⟩, ⟨?_, ?_⟩⟩
    · exact fun ck h => diffCheck_isEmpty.mp (hcheck ck h)
    · exact fun o h => diffGoneCheck_isEmpty.mp (hgoneCheck o h)
    · exact fun tr h => diffTrigger_isEmpty.mp (htrigger tr h)
    · exact fun o h => diffGoneTrigger_isEmpty.mp (hgoneTrigger o h)
    · exact fun u h => (diffIndex_isEmpty (List.mem_append_left _ (List.mem_map_of_mem h))).mp (hunique u h)
    · intro o h
      obtain ⟨u, hu, _⟩ := exists_of_any (diffGoneIndex_isEmpty.mp (hgoneUnique o h))
      rw [hu]
      rfl
    · exact fun x h => (diffIndex_isEmpty (List.mem_append_right _ (List.mem_map_of_mem h))).mp (hindex x h)
    · intro o h
      obtain ⟨x, hx, _⟩ := exists_of_any (diffGoneIndex_isEmpty.mp (hgoneIndex o h))
      rw [hx]
      rfl
    · intro r h
      exact (diffReference_isEmpty (hasColumns_of ht hcolumns h) (ht.references r h).2.1).mp (hreference r h)
    · exact fun o h => diffGoneReference_isEmpty.mp (hgoneReference o h)
  · intro h
    rw [renamesOf_nil h.renames, retypedOf_nil h.columns]
    have hearly : earlyTriggers t old [] = [] := rfl
    rw [hearly]
    refine ⟨⟨⟨⟨⟨⟨⟨⟨⟨⟨⟨⟨⟨?_, ?_⟩, ?_⟩, ?_⟩, ?_⟩, ?_⟩, ?_⟩, ?_⟩, ?_⟩, ?_⟩, ?_⟩, ?_⟩, ?_⟩, ?_⟩
    · exact fun r hr => diffRename_isEmpty.mpr (h.renames r hr)
    · exact fun o ho => absurd ho (List.not_mem_nil)
    · exact fun c hc => (diffColumn_isEmpty ht ho hc).mpr (h.columns c hc)
    · exact fun ck hck => diffCheck_isEmpty.mpr (h.checks.found ck hck)
    · exact fun o ho => diffGoneCheck_isEmpty.mpr (h.checks.kept o ho)
    · exact fun tr htr => diffTrigger_isEmpty.mpr (h.triggers.found tr htr)
    · exact fun o ho => diffGoneTrigger_isEmpty.mpr (h.triggers.kept o ho)
    · exact fun o hmem => diffGoneIndex_isEmpty.mpr (h.uniques.back ho.uniqueNames hmem)
    · exact fun o hmem => diffGoneIndex_isEmpty.mpr (h.indexes.back ho.indexNames hmem)
    · exact fun o hmem => diffGoneColumn_isEmpty.mpr (h.gone o hmem)
    · exact fun u hu =>
        (diffIndex_isEmpty (List.mem_append_left _ (List.mem_map_of_mem hu))).mpr (h.uniques.found u hu)
    · exact fun x hx =>
        (diffIndex_isEmpty (List.mem_append_right _ (List.mem_map_of_mem hx))).mpr (h.indexes.found x hx)
    · intro r hr
      exact (diffReference_isEmpty (hasColumns_of ht h.columns hr) (ht.references r hr).2.1).mpr
        (h.references.found r hr)
    · exact fun o hmem => diffGoneReference_isEmpty.mpr (h.references.kept o hmem)

/-! ## What a snapshot keeps -/

theorem digest_pos (n : NamedText) : 0 < n.digest.length ∧ n.digest.length ≤ 16 := by
  unfold NamedText.digest
  split
  · simp only [List.length_take]
    omega
  · simp [digestOf, Sha256.length_hex, Sha256.length_hash]

/-- A text compares as what is recorded of it. -/
@[simp] theorem digest_hashed (n : NamedText) (name : Bytes) :
    ({ name := name, hash := n.digest } : NamedText).digest = n.digest := by
  have hlen := digest_pos n
  rw [NamedText.digest, if_pos hlen.1]
  exact List.take_of_length_le hlen.2

theorem findByName_hashedOnly (list : List NamedText) (name : Bytes) :
    findByName NamedText.name (hashedOnly list) name =
      (findByName NamedText.name list name).map fun n => { name := n.name, hash := n.digest } := by
  simp only [findByName, hashedOnly, List.find?_map]
  rfl

theorem map_name_hashedOnly (list : List NamedText) :
    (hashedOnly list).map NamedText.name = list.map NamedText.name := by
  simp [hashedOnly, Function.comp_def]

theorem any_hashedOnly {list : List NamedText} {n : NamedText} :
    (findByName NamedText.name (hashedOnly list) n.name).any (·.sameAs n) =
      (findByName NamedText.name list n.name).any (·.sameAs n) := by
  rw [findByName_hashedOnly, Option.any_map]
  congr 1
  funext o
  simp [NamedText.sameAs]

@[simp] theorem column_recorded (t : Desc) (name : Bytes) : t.recorded.column name = t.column name := rfl

@[simp] theorem relation_recorded (t : Desc) : t.recorded.relation = t.relation := rfl

theorem Desc.Checked.recorded {t : Desc} (h : t.Checked) : t.recorded.Checked where
  columns := h.columns
  keys := h.keys
  keysAre := h.keysAre
  keyed := h.keyed
  required := h.required
  generated := h.generated
  words := h.words
  names := by
    have hnames : constraintNames t.recorded = constraintNames t := by
      simp only [constraintNames, Desc.recorded, map_name_hashedOnly, Sql.indexNames]
    rw [hnames]
    exact h.names
  uniques := h.uniques
  indexes := h.indexes
  references := h.references
  triggers := by
    have hnames : t.recorded.triggers.map NamedText.name = t.triggers.map NamedText.name :=
      map_name_hashedOnly t.triggers
    rw [hnames]
    exact h.triggers
  renamed := List.nodup_nil
  renames := fun r hr => absurd hr List.not_mem_nil

theorem sameNamed_hashedOnly {now old : List NamedText} :
    SameNamed NamedText.name NamedText.sameAs now (hashedOnly old) ↔
      SameNamed NamedText.name NamedText.sameAs now old := by
  have hkept : (∀ o ∈ hashedOnly old, (findByName NamedText.name now o.name).isSome) ↔
      ∀ o ∈ old, (findByName NamedText.name now o.name).isSome := by
    simp [hashedOnly]
  constructor
  · rintro ⟨hfound, h⟩
    exact ⟨fun x hx => any_hashedOnly ▸ hfound x hx, hkept.mp h⟩
  · rintro ⟨hfound, h⟩
    exact ⟨fun x hx => any_hashedOnly.symm ▸ hfound x hx, hkept.mpr h⟩

theorem settled_recorded {t old : Desc} : Settled t old.recorded ↔ Settled t old := by
  constructor
  · intro h
    exact ⟨h.renames, h.columns, h.gone, sameNamed_hashedOnly.mp h.checks,
      sameNamed_hashedOnly.mp h.triggers, h.uniques, h.indexes, h.references⟩
  · intro h
    exact ⟨h.renames, h.columns, h.gone, sameNamed_hashedOnly.mpr h.checks,
      sameNamed_hashedOnly.mpr h.triggers, h.uniques, h.indexes, h.references⟩

/-! ## A schema against its own snapshot -/

/-- Entries of one name agree with the first of them: Rows over one table, where one is managed,
functions, and views. -/
structure Agrees (desired : Desired) : Prop where
  tables : ∀ t ∈ desired.tables, t.managed = true →
    ∀ first, desired.tables.find? (·.relation == t.relation) = some first → Settled t first
  functions : ∀ f ∈ desired.functions,
    (findByName NamedText.name desired.functions f.name).any (·.sameAs f)
  views : ∀ v ∈ desired.views, (findByName NamedText.name desired.views v.name).any (·.sameAs v)

section Snapshot

variable {D : Dialect} {version : Nat} {desired : Desired}

theorem table_snapshotOf (r : Relation) :
    (snapshotOf D version desired).table r =
      (desired.tables.find? (·.relation == r)).map Desc.recorded := by
  simp only [Doc.table, snapshotOf, List.find?_map]
  rfl

theorem find_relation {t : Desc} (ht : t ∈ desired.tables) :
    ∃ first ∈ desired.tables, desired.tables.find? (·.relation == t.relation) = some first := by
  cases hfind : desired.tables.find? (·.relation == t.relation) with
  | none => exact absurd (List.find?_eq_none.mp hfind t ht) (by simp)
  | some first => exact ⟨first, List.mem_of_find?_eq_some hfind, rfl⟩

theorem goneTables_snapshotOf : goneTables desired (snapshotOf D version desired) = [] := by
  refine List.filter_eq_nil_iff.mpr fun old hold => ?_
  rw [List.mem_reverse] at hold
  obtain ⟨t, ht, rfl⟩ := List.mem_map.mp hold
  have hhas : has desired.tables t.recorded := List.any_eq_true.mpr ⟨t, ht, by simp⟩
  simp [hhas]

theorem planTable_snapshotOf (hd : ∀ t ∈ desired.tables, t.Checked) {t : Desc}
    (ht : t ∈ desired.tables) :
    (planTable D (snapshotOf D version desired) t).isEmpty ↔
      (t.managed = true →
        ∀ first, desired.tables.find? (·.relation == t.relation) = some first → Settled t first) := by
  obtain ⟨first, hfirst, hfind⟩ := find_relation ht
  unfold planTable
  rw [table_snapshotOf, hfind]
  by_cases hmanaged : t.managed = true
  · rw [if_neg (by simp [hmanaged])]
    simp only [Option.map_some, hmanaged, true_implies]
    rw [diffTable_isEmpty (hd t ht) (hd first hfirst).recorded, settled_recorded]
    exact ⟨fun h other hother => Option.some.inj hother ▸ h, fun h => h first rfl⟩
  · rw [if_pos (by simpa using hmanaged)]
    simp [hmanaged]

theorem shapedOf_snapshotOf (hd : ∀ t ∈ desired.tables, t.Checked) (h : Agrees desired) :
    shapedOf D desired (snapshotOf D version desired) = [] := by
  unfold shapedOf
  rw [goneTables_snapshotOf, List.map_nil, List.append_nil, List.map_eq_nil_iff,
    List.filter_eq_nil_iff]
  intro t ht hshapes
  obtain ⟨hmanaged, hshapes⟩ := Bool.and_eq_true_iff.mp hshapes
  obtain ⟨old, hold, hshapes⟩ := exists_of_any hshapes
  obtain ⟨first, hfirst, hfind⟩ := find_relation ht
  rw [table_snapshotOf, hfind] at hold
  rw [← Option.some.inj hold] at hshapes
  have hempty := (diffTable_isEmpty (D := D) (hd t ht) (hd first hfirst).recorded).mpr
    (settled_recorded.mpr (h.tables t ht hmanaged first hfind))
  rw [Diff.isEmpty_iff.mp hempty] at hshapes
  cases hshapes

end Snapshot

/-- The views keep their order, and one that is not remade has not moved. -/
theorem remadeOf_spec (before : Doc) (shaped : List Bytes) (earlier : List (NamedText × Bool))
    (rest : List NamedText) :
    ∃ later : List (NamedText × Bool), remadeOf before shaped earlier rest = earlier ++ later ∧
      later.map Prod.fst = rest ∧
      ∀ e ∈ later, e.2 = false → ∀ old, findByName NamedText.name before.views e.1.name = some old →
        old.sameAs e.1 := by
  induction rest generalizing earlier with
  | nil => exact ⟨[], by simp [remadeOf], rfl, by simp⟩
  | cons v rest ih =>
    unfold remadeOf
    dsimp only
    generalize hagain : (findByName NamedText.name before.views v.name).any _ = again
    obtain ⟨later, hlater, hmap, hsame⟩ := ih (earlier ++ [(v, again)])
    refine ⟨(v, again) :: later, by simp [hlater], by simp [hmap], ?_⟩
    rintro e he hfalse old hold
    rcases List.mem_cons.mp he with rfl | he
    · rw [hold] at hagain
      simp only [Option.any_some] at hagain
      simp only at hfalse
      rw [hfalse] at hagain
      simp only [Bool.or_eq_false_iff, Bool.not_eq_eq_eq_not, Bool.not_false] at hagain
      exact hagain.1.1
    · exact hsame e he hfalse old hold

/-- Where no table is reshaped and no view moved, none is remade. -/
theorem remadeOf_none {before : Doc} {earlier : List (NamedText × Bool)} {rest : List NamedText}
    (hearlier : ∀ e ∈ earlier, e.2 = false)
    (hrest : ∀ v ∈ rest, (findByName NamedText.name before.views v.name).any (·.sameAs v)) :
    ∀ e ∈ remadeOf before [] earlier rest, e.2 = false := by
  induction rest generalizing earlier with
  | nil => simpa [remadeOf] using hearlier
  | cons v rest ih =>
    unfold remadeOf
    refine ih ?_ fun w hw => hrest w (List.mem_cons_of_mem _ hw)
    intro e he
    rcases List.mem_append.mp he with he | he
    · exact hearlier e he
    · rw [List.mem_singleton.mp he]
      obtain ⟨old, hold, hsame⟩ := exists_of_any (hrest v List.mem_cons_self)
      have hreads : (earlier.any fun e => e.2 && mentions v.body e.1.name) = false := by
        rw [List.any_eq_false]
        intro e he
        simp [hearlier e he]
      simp only [hold, Option.any_some, hsame, hreads]
      rfl

section Snapshot

variable {D : Dialect} {version : Nat} {desired : Desired}

theorem createViewStep_snapshotOf {v : NamedText × Bool} (hv : v.1 ∈ desired.views) :
    (createViewStep (snapshotOf D version desired) v).isEmpty ↔ v.2 = false := by
  have hfound : (findByName NamedText.name (snapshotOf D version desired).views v.1.name).isSome := by
    have hviews : (snapshotOf D version desired).views = hashedOnly desired.views := rfl
    rw [hviews, findByName_hashedOnly, Option.isSome_map]
    exact List.find?_isSome.mpr ⟨v.1, hv, by simp⟩
  unfold createViewStep
  rw [Diff.isEmpty_unless rfl, hfound]
  simp

theorem createFunctionStep_snapshotOf {f : NamedText} :
    (createFunctionStep (snapshotOf D version desired) f).isEmpty ↔
      (findByName NamedText.name desired.functions f.name).any (·.sameAs f) := by
  unfold createFunctionStep
  have hfunctions : (snapshotOf D version desired).functions = hashedOnly desired.functions := rfl
  rw [Diff.isEmpty_unless rfl, hfunctions, any_hashedOnly]

theorem dropFunctionStep_snapshotOf {old : NamedText}
    (h : old ∈ (snapshotOf D version desired).functions) : (dropFunctionStep desired old).isEmpty := by
  obtain ⟨f, hf, rfl⟩ := List.mem_map.mp h
  unfold dropFunctionStep
  rw [Diff.isEmpty_unless rfl]
  exact List.find?_isSome.mpr ⟨f, hf, by simp⟩

/-- The views of a plan: none comes down where none is remade. -/
theorem dropViewStep_snapshotOf {remade : List (NamedText × Bool)}
    (hviews : remade.map Prod.fst = desired.views) (hnone : ∀ e ∈ remade, e.2 = false)
    {old : NamedText} (h : old ∈ (snapshotOf D version desired).views) :
    (dropViewStep remade old).isEmpty := by
  obtain ⟨v, hv, rfl⟩ := List.mem_map.mp h
  rw [← hviews] at hv
  obtain ⟨e, he, rfl⟩ := List.mem_map.mp hv
  unfold dropViewStep
  cases hfind : remade.find? (·.1.name == e.1.name) with
  | none => exact absurd (List.find?_eq_none.mp hfind e he) (by simp)
  | some found =>
    obtain ⟨w, again⟩ := found
    have hagain : again = false := hnone _ (List.mem_of_find?_eq_some hfind)
    simp only [hfind, hagain]
    rfl

/-- A schema has nothing to do against its own snapshot exactly when its entries agree. -/
theorem planOf_snapshotOf (hd : ∀ t ∈ desired.tables, t.Checked) :
    (planOf D desired (snapshotOf D version desired)).isEmpty ↔ Agrees desired := by
  have hmatched : ¬ Mismatched D (snapshotOf D version desired) := fun h => h.2 rfl
  unfold planOf
  rw [if_neg hmatched]
  simp only [Diff.isEmpty_append, Bool.and_eq_true, Diff.isEmpty_each, goneTables_snapshotOf]
  obtain ⟨remade, hremade, hviews, hsame⟩ :=
    remadeOf_spec (snapshotOf D version desired)
      (shapedOf D desired (snapshotOf D version desired)) [] desired.views
  rw [List.nil_append] at hremade
  rw [hremade]
  constructor
  · rintro ⟨⟨⟨⟨⟨⟨⟨_, _⟩, hfunctions⟩, htables⟩, _⟩, hcreate⟩, _⟩, _⟩
    refine ⟨fun t ht => (planTable_snapshotOf hd ht).mp (htables t ht),
      fun f hf => createFunctionStep_snapshotOf.mp (hfunctions f hf), fun v hv => ?_⟩
    obtain ⟨e, he, rfl⟩ := List.mem_map.mp (hviews ▸ hv)
    have hfalse := (createViewStep_snapshotOf hv).mp (hcreate e he)
    have hfound : (findByName NamedText.name desired.views e.1.name).isSome :=
      List.find?_isSome.mpr ⟨e.1, hv, by simp⟩
    obtain ⟨first, hfirst⟩ := Option.isSome_iff_exists.mp hfound
    have hold : findByName NamedText.name (snapshotOf D version desired).views e.1.name =
        some { name := first.name, hash := first.digest } := by
      have hhashed : (snapshotOf D version desired).views = hashedOnly desired.views := rfl
      rw [hhashed, findByName_hashedOnly, hfirst]
      rfl
    have hsameAs := hsame e he hfalse _ hold
    rw [hfirst]
    simpa [NamedText.sameAs] using hsameAs
  · intro h
    have hnone : ∀ e ∈ remade, e.2 = false := by
      rw [← hremade, shapedOf_snapshotOf hd h]
      refine remadeOf_none (fun e he => absurd he List.not_mem_nil) fun v hv => ?_
      have hhashed : (snapshotOf D version desired).views = hashedOnly desired.views := rfl
      rw [hhashed, any_hashedOnly]
      exact h.views v hv
    refine ⟨⟨⟨⟨⟨⟨⟨?_, ?_⟩, ?_⟩, ?_⟩, ?_⟩, ?_⟩, ?_⟩, ?_⟩
    · exact fun old hold => dropViewStep_snapshotOf hviews hnone (List.mem_reverse.mp hold)
    · exact fun name hname => (Diff.isEmpty_unless rfl).mpr (List.contains_iff_mem.mpr hname)
    · exact fun f hf => createFunctionStep_snapshotOf.mpr (h.functions f hf)
    · exact fun t ht => (planTable_snapshotOf hd ht).mpr (h.tables t ht)
    · exact fun old hold => absurd hold List.not_mem_nil
    · intro e he
      have hv : e.1 ∈ desired.views := hviews ▸ List.mem_map_of_mem he
      exact (createViewStep_snapshotOf hv).mpr (hnone e he)
    · exact fun old hold => dropFunctionStep_snapshotOf hold
    · exact fun name hname => (Diff.isEmpty_unless rfl).mpr (List.contains_iff_mem.mpr hname)

theorem plan_eq_nil {before : Doc} : plan D desired before = .ok {} ↔ (planOf D desired before).isEmpty := by
  rw [Diff.isEmpty_iff]
  constructor
  · exact fun h => (plan_ok h).symm
  · intro h
    unfold plan
    rw [h]
    rfl

end Snapshot

/-! ## Distinct names -/

theorem sameWords_self (a : List Bytes) : sameWords a a = true := by
  have hall : (a.all fun x => a.any (x == ·)) = true :=
    List.all_eq_true.mpr fun x hx => List.any_eq_true.mpr ⟨x, hx, by simp⟩
  simp [sameWords, hall]

theorem Column.sameAs_self (c : Column) : c.sameAs c = true := by
  simp [Column.sameAs, sameWords_self]

theorem SameNamed.self {α : Type} {nameOf : α → Bytes} {same : α → α → Bool} {list : List α}
    (hn : (list.map nameOf).Nodup) (hsame : ∀ x, same x x = true) : SameNamed nameOf same list list where
  found x hx := by simp [findByName_self hn hx, hsame x]
  kept x hx := by simp [findByName_self hn hx]

/-- A table is what is recorded of it. -/
theorem Desc.Checked.settled {t : Desc} (h : t.Checked) : Settled t t where
  renames r hr := (h.renames r hr).2
  columns c hc := by
    have hself : t.column c.name = some c := findByName_self h.columns hc
    simp [hself, Column.sameAs_self]
  gone c hc := by
    have hself : t.column c.name = some c := findByName_self h.columns hc
    simp [hself]
  checks := .self h.checkNames fun n => by simp [NamedText.sameAs]
  triggers := .self h.triggers fun n => by simp [NamedText.sameAs]
  uniques := .self h.uniqueNames fun u => by simp [sameUniqueThrough]
  indexes := .self h.indexNames fun x => by simp [sameIndexThrough]
  references := .self h.referenceNames fun r => by simp [sameReferenceThrough]

/-- Where no two entries share a name there is nothing to agree about. -/
theorem agrees_of_distinct {desired : Desired} (hd : ∀ t ∈ desired.tables, t.Checked)
    (htables : (desired.tables.map Desc.relation).Nodup)
    (hfunctions : (desired.functions.map NamedText.name).Nodup)
    (hviews : (desired.views.map NamedText.name).Nodup) : Agrees desired where
  tables t ht _ first hfirst := by
    rw [Lib.find?_key htables ht] at hfirst
    rw [← Option.some.inj hfirst]
    exact (hd t ht).settled
  functions f hf := by simp [findByName_self hfunctions hf, NamedText.sameAs]
  views v hv := by simp [findByName_self hviews hv, NamedText.sameAs]

/-! ## Generating twice -/

/-- Generating again does nothing, from the snapshot as it was made and as it is read back from its
file, exactly when the entries of one name agree with each other. -/
theorem plan_snapshotOf_iff {D : Dialect} {version : Nat} {desired : Desired} {zon : Zon}
    (hd : desired.Checked D)
    (hround : zon.fromSlice (render zon (snapshotOf D version desired)) =
      some (snapshotOf D version desired)) :
    (plan D desired (snapshotOf D version desired) = .ok {} ∧
        ∃ doc, parse zon (render zon (snapshotOf D version desired)) = some doc ∧
          plan D desired doc = .ok {}) ↔
      Agrees desired := by
  have hparse : parse zon (render zon (snapshotOf D version desired)) =
      some (snapshotOf D version desired) := by
    unfold parse parseWith
    rw [hround]
    rfl
  have hplan : plan D desired (snapshotOf D version desired) = .ok {} ↔ Agrees desired := by
    rw [plan_eq_nil, planOf_snapshotOf hd.tables]
  rw [hparse, hplan]
  constructor
  · exact fun h => h.1
  · exact fun h => ⟨h, _, rfl, hplan.mpr h⟩

/-- A column renamed long ago, a check and a view. -/
def members : Desired where
  tables :=
    [{ row := ascii "Member"
       table := ascii "members"
       keys := [ascii "id"]
       columns :=
         [{ name := ascii "id", sqlType := ascii "int8", key := true, generated := true },
           { name := ascii "email", sqlType := ascii "text" }]
       checks := [{ name := ascii "members_email_is_one", body := ascii "position('@' in email) > 0" }]
       renames := [⟨ascii "mail", ascii "email"⟩] }]
  views := [{ name := ascii "member_emails", body := ascii "SELECT id, email FROM members" }]

theorem members_checked : members.Checked .postgres where
  tables := by
    intro t ht
    rw [List.mem_singleton.mp ht]
    constructor <;> decide
  extensions := by decide
  functions := by decide
  views := by decide
  indexNames := List.pairwise_singleton _ _
  order := List.pairwise_singleton _ _

/-- The file that schema's snapshot goes into, less its heading. -/
def membersFile : Bytes :=
  ascii <|
    ".\x7b\n" ++
    "    .version = 1,\n" ++
    "    .dialect = \"postgres\",\n" ++
    "    .tables = .\x7b.\x7b\n" ++
    "        .table = \"members\",\n" ++
    "        .keys = .\x7b\"id\"\x7d,\n" ++
    "        .columns = .\x7b\n" ++
    "            .\x7b .name = \"id\", .sql_type = \"int8\", .key = true, .generated = true \x7d,\n" ++
    "            .\x7b .name = \"email\", .sql_type = \"text\" \x7d,\n" ++
    "        \x7d,\n" ++
    "        .checks = .\x7b.\x7b .name = \"members_email_is_one\", .hash = \"78fcb72c4100ec02\" \x7d\x7d,\n" ++
    "    \x7d\x7d,\n" ++
    "    .views = .\x7b.\x7b .name = \"member_emails\", .hash = \"cc9112d8511358d8\" \x7d\x7d,\n" ++
    "\x7d"

/-- `std.zon` on that file. -/
def membersZon : Zon where
  serialize _ := membersFile
  fromSlice text :=
    if text = header ++ membersFile ++ ascii "\n" then some (snapshotOf .postgres 1 members) else none
  fromSliceOlder _ := none

theorem plan_snapshotOf_members :
    plan .postgres members (snapshotOf .postgres 1 members) = .ok {} ∧
      ∃ doc, parse membersZon (render membersZon (snapshotOf .postgres 1 members)) = some doc ∧
        plan .postgres members doc = .ok {} := by
  have hround : membersZon.fromSlice (render membersZon (snapshotOf .postgres 1 members)) =
      some (snapshotOf .postgres 1 members) := by
    simp only [render, membersZon, if_true]
  refine (plan_snapshotOf_iff members_checked hround).mpr (agrees_of_distinct ?_ ?_ ?_ ?_)
  · exact members_checked.tables
  · exact List.nodup_singleton _
  · exact List.nodup_nil
  · exact List.nodup_singleton _

/-- One function for two types, as Postgres lets it be overloaded. -/
def overloads : Desired where
  tables := []
  functions :=
    [{ name := ascii "f", body := ascii "CREATE OR REPLACE FUNCTION f(int) RETURNS int RETURN 1" },
      { name := ascii "f", body := ascii "CREATE OR REPLACE FUNCTION f(oid) RETURNS int RETURN 2" }]

theorem overloads_checked : overloads.Checked .postgres where
  tables t ht := absurd ht List.not_mem_nil
  extensions := by decide
  functions := by decide
  views := by decide
  indexNames := List.Pairwise.nil
  order := List.Pairwise.nil

/-- The second of two functions under one name is compared with the first, and written again by
every generate. -/
theorem plan_snapshotOf_overloads :
    ¬ ∀ (D : Dialect) (version : Nat) (desired : Desired), desired.Checked D →
      plan D desired (snapshotOf D version desired) = .ok {} := by
  intro h
  have hplan := h .postgres 1 overloads overloads_checked
  have hwrites : plan .postgres overloads (snapshotOf .postgres 1 overloads) ≠ .ok {} := by
    decide +kernel
  exact hwrites hplan

end Nilo.Sql
