import Nilo.Sql.Ddl

/-!
# The plan (`plan`, `diffTable` and the diffs under it in `sql/migrate.zig`)

The difference between what the types say and what the snapshot says, as the steps that close it
and the Problems the diff will not write. Every diff appends to one list of steps and one of
Problems, so each is a `Diff` here and a loop over a list is `each`.
-/

namespace Nilo.Sql

open Text

/-! ## Steps and Problems -/

structure Step where
  sql : Sql
  /-- Running it loses data that nothing can bring back. -/
  destructive : Bool := false
  /-- What a destructive step loses, as `--drop` names it, or the index `--concurrently` names. -/
  target : Bytes := []
  needsBackfill : Bool := false
  /-- The index this step builds, as a catalog lookup reads it. -/
  index : Bytes := []
deriving DecidableEq, Repr

def Step.kind (s : Step) : Kind := s.sql.what.kind

/-- Something the diff will not write, with the reason and what to do instead. -/
structure Problem where
  table : Bytes
  column : Bytes := []
  text : Bytes
deriving DecidableEq, Repr

structure Diff where
  steps : List Step := []
  problems : List Problem := []
deriving DecidableEq, Repr

namespace Diff

def step (s : Step) : Diff := { steps := [s] }

def problem (p : Problem) : Diff := { problems := [p] }

instance : Append Diff := ⟨fun a b => ⟨a.steps ++ b.steps, a.problems ++ b.problems⟩⟩

/-- A loop over a list, each turn appending what it finds. -/
def each {α : Type} (list : List α) (f : α → Diff) : Diff := list.foldr (fun x rest => f x ++ rest) {}

def isEmpty (d : Diff) : Bool := d.steps.isEmpty && d.problems.isEmpty

@[simp] theorem steps_append (a b : Diff) : (a ++ b).steps = a.steps ++ b.steps := rfl

@[simp] theorem problems_append (a b : Diff) : (a ++ b).problems = a.problems ++ b.problems := rfl

@[simp] theorem steps_step (s : Step) : (step s).steps = [s] := rfl

@[simp] theorem problems_step (s : Step) : (step s).problems = [] := rfl

@[simp] theorem steps_problem (p : Problem) : (problem p).steps = [] := rfl

@[simp] theorem problems_problem (p : Problem) : (problem p).problems = [p] := rfl

theorem steps_each {α : Type} (list : List α) (f : α → Diff) :
    (each list f).steps = list.flatMap fun x => (f x).steps := by
  induction list with
  | nil => rfl
  | cons x rest ih => simpa [each] using ih

theorem problems_each {α : Type} (list : List α) (f : α → Diff) :
    (each list f).problems = list.flatMap fun x => (f x).problems := by
  induction list with
  | nil => rfl
  | cons x rest ih => simpa [each] using ih

theorem mem_steps_each {α : Type} {list : List α} {f : α → Diff} {s : Step} :
    s ∈ (each list f).steps ↔ ∃ x ∈ list, s ∈ (f x).steps := by
  rw [steps_each, List.mem_flatMap]

@[simp] theorem isEmpty_nil : isEmpty {} := rfl

@[simp] theorem isEmpty_step (s : Step) : isEmpty (step s) = false := rfl

@[simp] theorem isEmpty_problem (p : Problem) : isEmpty (problem p) = false := rfl

@[simp] theorem isEmpty_append (a b : Diff) : (a ++ b).isEmpty = (a.isEmpty && b.isEmpty) := by
  rcases a with ⟨_ | ⟨s, steps⟩, _ | ⟨p, problems⟩⟩ <;> simp [isEmpty]

theorem isEmpty_each {α : Type} (list : List α) (f : α → Diff) :
    (each list f).isEmpty ↔ ∀ x ∈ list, (f x).isEmpty := by
  induction list with
  | nil => simp [each]
  | cons x rest ih =>
    have h : each (x :: rest) f = f x ++ each rest f := rfl
    rw [h, isEmpty_append, Bool.and_eq_true, ih]
    simp

theorem isEmpty_ite {p : Prop} [Decidable p] {d : Diff} (hd : d.isEmpty = false) :
    (if p then d else {}).isEmpty ↔ ¬ p := by
  by_cases hp : p <;> simp [hp, hd]

/-- The other way round, which is how the diffs skip what has not moved. -/
theorem isEmpty_unless {p : Prop} [Decidable p] {d : Diff} (hd : d.isEmpty = false) :
    (if p then {} else d).isEmpty ↔ p := by
  by_cases hp : p <;> simp [hp, hd]

/-- Every step of the diff is of one kind. -/
def All (P : Step → Prop) (d : Diff) : Prop := ∀ s ∈ d.steps, P s

namespace All

variable {P : Step → Prop} {a b : Diff}

theorem nil : All P {} := by
  intro s hs
  cases hs

theorem problem (p : Problem) : All P (.problem p) := by
  intro s hs
  cases hs

theorem step {s : Step} (h : P s) : All P (.step s) := by
  intro s' hs
  rw [steps_step, List.mem_singleton] at hs
  rw [hs]
  exact h

theorem append (ha : All P a) (hb : All P b) : All P (a ++ b) := by
  intro s hs
  rw [steps_append, List.mem_append] at hs
  rcases hs with hs | hs
  · exact ha s hs
  · exact hb s hs

theorem each {α : Type} {list : List α} {f : α → Diff} (h : ∀ x ∈ list, All P (f x)) :
    All P (.each list f) := by
  intro s hs
  obtain ⟨x, hx, hs⟩ := mem_steps_each.mp hs
  exact h x hx s hs

theorem ite {p : Prop} [Decidable p] (ha : All P a) (hb : All P b) : All P (if p then a else b) := by
  split
  · exact ha
  · exact hb

end All

theorem isEmpty_iff {d : Diff} : d.isEmpty ↔ d = {} := by
  rcases d with ⟨steps, problems⟩
  simp [isEmpty]

end Diff

/-- The recipe every SQLite Problem that needs the table rebuilt ends with. -/
def sqliteRebuild : Bytes := ascii <|
  "The four statements are CREATE a new table with the shape you want, INSERT INTO " ++
  "it SELECT from the old one, DROP the old one, ALTER TABLE RENAME the new one. " ++
  "Write them as a step, then make the indexes and triggers again, since they go " ++
  "with the old table, and drop any view that reads it before the DROP and make it " ++
  "after. `db migrate` runs a version that drops a table with foreign keys off, so " ++
  "the DROP does not delete the rows pointing at the old table; run by hand, " ++
  "`PRAGMA foreign_keys = OFF` goes before the BEGIN."

/-- What `--drop` calls a table or one of its columns. -/
def targetOf (r : Relation) (column : Option Bytes) : Bytes :=
  let qualified :=
    match r.schema with
    | some s => s ++ ascii "." ++ r.table
    | none => r.table
  match column with
  | none => qualified
  | some c => qualified ++ ascii "." ++ c

/-- The entry of `list` called `name`, for any kind of object a table lists by name. -/
def findByName {α : Type} (nameOf : α → Bytes) (list : List α) (name : Bytes) : Option α :=
  list.find? (nameOf · == name)

/-! ## Columns -/

/-- A column as the snapshot had it, looking through the renames just written. -/
def columnBefore (old : Desc) (name : Bytes) (renames : List Rename) : Option Column :=
  match old.column name with
  | some c => some c
  | none =>
    match renames.find? (·.to_ == name) with
    | some r => old.column r.from_
    | none => none

def wasRenamed (renames : List Rename) (name : Bytes) : Bool := renames.any (·.from_ == name)

/-- The renames of `.was` that are still to be written: the others are spent, or clash. -/
def renamesOf (t old : Desc) : List Rename :=
  t.renames.filter fun r => (old.column r.from_).isSome && (old.column r.to_).isNone

def diffRename (t old : Desc) (r : Rename) : Diff :=
  if (old.column r.from_).isNone then {}
  else if (old.column r.to_).isSome then
    .problem {
      table := t.table
      column := r.to_
      text := ascii "`.was` says `" ++ r.to_ ++ ascii "` used to be `" ++ r.from_ ++
        ascii "`, and the schema already has both. Nothing can be renamed onto a column that is there." }
  else .step { sql := ddl.renameColumn t r.from_ r.to_ }

/-- Whether SQLite takes `text` as the default of a column it adds to a table with rows. -/
def constantOnSqlite (D : Dialect) (text : Bytes) : Bool :=
  if D ≠ .sqlite then true
  else
    let t := trim text
    if t.head? = some 40 then false
    else !(decide (8 ≤ t.length) && eqlIgnoreCase (t.take 8) (ascii "CURRENT_"))

/-- A column the table did not have. -/
def diffNewColumn (D : Dialect) (t : Desc) (c : Column) : Diff :=
  if c.key then
    .problem {
      table := t.table
      column := c.name
      text := ascii "the key moved: " ++ c.name ++ ascii
        (" is a new column and the key. Neither database adds " ++
          "a primary key to a table that exists, and the column would be added " ++
          "as a plain one, leaving the table with no key and rows nothing can " ++
          "address. Write it as a step.") }
  else if D = .sqlite ∧ !c.nullable ∧ c.default = none then
    .problem {
      table := t.table
      column := c.name
      text := t.table ++ ascii "." ++ c.name ++ utf8
        (" is added required with no default, and SQLite refuses `ADD " ++
          "COLUMN … NOT NULL` without one on a table with rows: the ALTER " ++
          "fails at the deploy rather than here, and nothing fills the rows " ++
          "already there. Give the field a `.default` in the marker, so the " ++
          "rows get it as the column is added, or make it optional and fill " ++
          "it in a step. Or rebuild the table. ") ++ sqliteRebuild }
  else if c.default.any fun text => !constantOnSqlite D text then
    .problem {
      table := t.table
      column := c.name
      text := t.table ++ ascii "." ++ c.name ++
        ascii " is added with a default SQLite works out per row, `" ++ c.default.getD [] ++
        ascii ("`, and SQLite adds such a column only to a table with no rows: on one with " ++
          "rows the ALTER fails, at the deploy rather than here. ") ++ sqliteRebuild ++
        ascii (" Or add the field optional with no default, fill " ++
          "it in a step, and let the Row write it from then on.") }
  else if D = .sqlite ∧ (ddl.newColumnKey t c.name).isSome ∧
      c.default.any fun text => !eqlIgnoreCase (trim text) (ascii "NULL") then
    .problem {
      table := t.table
      column := c.name
      text := t.table ++ ascii "." ++ c.name ++
        ascii " is added with a foreign key and the default `" ++ c.default.getD [] ++
        ascii ("`, and SQLite adds a column with a `REFERENCES` only when it defaults to NULL. Drop the " ++
          "`.default` and fill the column in a step, or rebuild the table. ") ++ sqliteRebuild }
  else .step { sql := ddl.addColumn t c, needsBackfill := !c.nullable && c.default.isNone }

/-- What about a column is not what the snapshot recorded, as one phrase. -/
def whatMoved (c was : Column) : Bytes :=
  let parts : List Bytes :=
    (if c.sqlType ≠ was.sqlType then
      [ascii "it is " ++ c.sqlType ++ ascii " and was " ++ was.sqlType] else []) ++
    (if c.nullable ≠ was.nullable then
      [if c.nullable then ascii "it may be null now" else ascii "it may no longer be null"] else []) ++
    (if c.default ≠ was.default then
      [match c.default with
        | some text => ascii "it defaults to " ++ text
        | none => ascii "it has no default any more"] else []) ++
    (if !sameWords c.values was.values then
      [ascii "the words it may hold are " ++ ascii (toString c.values.length) ++ ascii " and were " ++
        ascii (toString was.values.length)] else []) ++
    (if c.check ≠ was.check then [ascii "the check over its words is called something else now"] else [])
  List.intercalate (ascii ", ") parts

/-- Whether the old set holds a word the new one does not. -/
def anyLost (before now : List Bytes) : Bool := before.any fun old => !now.any (old == ·)

/-- The check over a column's words, dropped and made again. -/
def diffWords (t : Desc) (c was : Column) : Diff :=
  (if 0 < was.values.length then .step { sql := ddl.dropCheck t was } else {}) ++
    if 0 < c.values.length then
      .step {
        sql := ddl.addCheck t c
        needsBackfill := was.values.length == 0 || anyLost was.values c.values }
    else {}

/-- A column the table had, under this name or the one it was renamed from. -/
def diffOldColumn (D : Dialect) (t : Desc) (c was : Column) : Diff :=
  -- The derived check follows the column's name, which `RENAME COLUMN` does not see to.
  (if D.canAlterConstraint ∧ was.name ≠ c.name ∧ 0 < was.values.length ∧ !was.checkNamed ∧
      !c.checkNamed ∧ sameWords c.values was.values then
    .step { sql := ddl.renameCheck t was.name c.name } else {}) ++
  if c.sameAs was then {}
  else if c.key ≠ was.key ∨ c.generated ≠ was.generated then
    .problem {
      table := t.table
      column := c.name
      text := ascii ("the key moved, or stopped being generated. Neither database changes " ++
        "a primary key in place, and doing it by halves leaves rows nothing " ++
        "can address. Write it as a step.") }
  else
    let shapeChanged := c.sqlType != was.sqlType || c.nullable != was.nullable
    let defaultChanged := c.default != was.default
    let wordsChanged := !sameWords c.values was.values
    let checkRenamed := c.check != was.check && (0 < c.values.length || 0 < was.values.length)
    if ((shapeChanged || defaultChanged) && !D.canAlterColumn) ||
        ((wordsChanged || checkRenamed) && !D.canAlterConstraint) then
      .problem {
        table := t.table
        column := c.name
        text := t.table ++ ascii "." ++ c.name ++ ascii " changed: " ++ whatMoved c was ++
          ascii ". The " ++ D.name ++ utf8 (" dialect cannot change a column in " ++
            "place — `ALTER TABLE` adds, drops and renames and does nothing " ++
            "else, so a type, a NOT NULL, a default and a check are all fixed " ++
            "when the table is created. ") ++ sqliteRebuild }
    else
      (if c.sqlType ≠ was.sqlType then
        .step {
          sql := ddl.alterType t c
          destructive := !widens was.sqlType c.sqlType
          target := if widens was.sqlType c.sqlType then [] else targetOf t.relation c.name }
        else {}) ++
      (if c.nullable ≠ was.nullable then
        .step { sql := ddl.alterNullability t c, needsBackfill := !c.nullable } else {}) ++
      (if defaultChanged then .step { sql := ddl.alterDefault t c } else {}) ++
      (if wordsChanged || checkRenamed then diffWords t c was else {})

def diffColumn (D : Dialect) (t old : Desc) (renames : List Rename) (c : Column) : Diff :=
  match columnBefore old c.name renames with
  | none => diffNewColumn D t c
  | some was => diffOldColumn D t c was

/-- A column no field reads. -/
def diffGoneColumn (t : Desc) (renames : List Rename) (oc : Column) : Diff :=
  if (t.column oc.name).isSome then {}
  else if wasRenamed renames oc.name then {}
  else
    .step {
      sql := ddl.dropColumn t oc.name
      destructive := true
      target := targetOf t.relation oc.name }

/-! ## Checks and triggers -/

def diffCheck (D : Dialect) (t old : Desc) (ck : NamedText) : Diff :=
  let before := findByName NamedText.name old.checks ck.name
  if before.any (·.sameAs ck) then {}
  else if !D.canAlterConstraint then
    .problem {
      table := t.table
      text := ascii "the check " ++ ck.name ++ ascii " is new or its body changed, and the " ++ D.name ++
        ascii " dialect writes a table constraint when the table is created and never again. " ++
        sqliteRebuild }
  else
    (if before.isSome then .step { sql := ddl.dropConstraint t ck.name } else {}) ++
      .step { sql := ddl.addNamedCheck t ck, needsBackfill := before.isNone }

def diffGoneCheck (D : Dialect) (t : Desc) (o : NamedText) : Diff :=
  if (findByName NamedText.name t.checks o.name).isSome then {}
  else if !D.canAlterConstraint then
    .problem {
      table := t.table
      text := ascii "the check " ++ o.name ++ ascii " is gone from the types and is still on the table. The " ++
        D.name ++ ascii " dialect cannot drop a table constraint, so the table has to be rebuilt. " ++
        sqliteRebuild }
  else .step { sql := ddl.dropConstraint t o.name }

/-- The columns whose type moves, where the database can move one. -/
def retypedOf (D : Dialect) (t old : Desc) (renames : List Rename) : List Bytes :=
  if !D.canAlterColumn then []
  else
    (t.columns.filter fun c =>
      (columnBefore old c.name renames).any fun before => c.sqlType != before.sqlType).map (·.name)

/-- The triggers that come down before a column changes type: those that move anyway, and those
whose text names one of the columns. -/
def earlyTriggers (t old : Desc) (retyped : List Bytes) : List NamedText :=
  if retyped = [] then []
  else old.triggers.filter fun o =>
    match findByName NamedText.name t.triggers o.name with
    | some now => !(now.sameAs o && !mentionsAny now.body retyped && !mentionsAny now.tail retyped)
    | none => true

def diffTrigger (D : Dialect) (t old : Desc) (early : List Bytes) (tr : NamedText) : Diff :=
  let before := findByName NamedText.name old.triggers tr.name
  let down := early.contains tr.name
  if before.any fun o => !down && o.sameAs tr then {}
  else
    (if before.isSome && !down then .step { sql := ddl.dropTrigger D t tr.name } else {}) ++
      .step { sql := ddl.createTrigger t tr }

def diffGoneTrigger (D : Dialect) (t : Desc) (early : List Bytes) (o : NamedText) : Diff :=
  if (findByName NamedText.name t.triggers o.name).isSome then {}
  else if early.contains o.name then {}
  else .step { sql := ddl.dropTrigger D t o.name }

/-! ## Indexes and references -/

def sameUniqueThrough (renames : List Rename) (was now : Unique) : Bool :=
  was.ignoringCase == now.ignoringCase && sameColumnsThrough was.columns now.columns renames

def sameIndexThrough (renames : List Rename) (was now : Index) : Bool :=
  sameColumnsThrough was.columns now.columns renames &&
    sameColumnsThrough was.descending now.descending renames &&
    whereThrough was.where_ renames == now.where_

def sameReferenceThrough (renames : List Rename) (was now : Reference) : Bool :=
  sameColumnsThrough was.columns now.columns renames && was.table == now.table &&
    was.schema == now.schema && was.targets == now.targets && was.onDelete == now.onDelete

section Carried

variable {α : Type} (nameOf : α → Bytes) (sameThrough : α → α → Bool)

/-- The name of the old object that `x` is once the renames have run, under a name none of
`nowList` has. -/
def carriedFrom (oldList nowList : List α) (x : α) (renames : List Rename) : Option Bytes :=
  if renames.length = 0 then none
  else
    (oldList.find? fun o => (findByName nameOf nowList (nameOf o)).isNone && sameThrough o x).map nameOf

/-- The old name an object the snapshot has under no name of its own goes on from, where the
database can rename it. -/
def carried (can : Bool) (oldList nowList : List α) (x : α) (renames : List Rename) : Option Bytes :=
  if can && (findByName nameOf oldList (nameOf x)).isNone then
    carriedFrom nameOf sameThrough oldList nowList x renames
  else none

/-- Whether an old object goes on under a new name. -/
def renamedIn (o : α) (nowList : List α) (renames : List Rename) : Bool :=
  if renames.length = 0 then false else nowList.any (sameThrough o ·)

/-- The first half of an index's diff, before any column goes: one that is defined differently or
is gone. -/
def diffGoneIndex (D : Dialect) (t : Desc) (nowList : List α) (renames : List Rename) (o : α) : Diff :=
  match findByName nameOf nowList (nameOf o) with
  | some now => if sameThrough o now then {} else .step { sql := ddl.dropIndex t (nameOf o) }
  | none =>
    if D.canAlterConstraint && renamedIn sameThrough o nowList renames then {}
    else .step { sql := ddl.dropIndex t (nameOf o) }

/-- The `CREATE INDEX` for one name, out of what the type compiled to. -/
def sqlFor (t : Desc) (name : Bytes) : Option Sql :=
  ((ddl.createdFor t).indexes.find? (·.name == name)).map (·.sql)

/-- The second half, after the columns: nothing, a rename, or a build. -/
def diffIndex (D : Dialect) (t : Desc) (oldList nowList : List α) (renames : List Rename) (x : α) : Diff :=
  if (findByName nameOf oldList (nameOf x)).any (sameThrough · x) then {}
  else
    match carried nameOf sameThrough D.canAlterConstraint oldList nowList x renames with
    | some was => .step { sql := ddl.renameIndex t was (nameOf x) }
    | none =>
      -- `sqlFor` always answers: the name was read off the table the statements were made from.
      .each (sqlFor t (nameOf x)).toList fun sql =>
        .step {
          sql :=
            if D.canBuildConcurrently then { sql with idents := t.schema.toList ++ [nameOf x] } else sql
          target := if D.canBuildConcurrently then nameOf x else []
          index :=
            if D.canBuildConcurrently then
              t.schema.toList.flatMap (fun s => quoted s ++ ascii ".") ++ quoted (nameOf x)
            else [] }

end Carried

/-- `"a", "b"`: the columns of a foreign key as they go inside a statement. -/
def quotedList (columns : List Bytes) : Bytes := List.intercalate (ascii ", ") (columns.map quoted)

/-- The same list unquoted, for the `column` a Problem is reported against. -/
def plainList (columns : List Bytes) : Bytes := List.intercalate (ascii ", ") columns

def diffReference (D : Dialect) (t old : Desc) (renames : List Rename) (r : Reference) : Diff :=
  let before := findByName Reference.name old.references r.name
  if before.any (sameReferenceThrough renames · r) then {}
  -- The key of a new column went with the column.
  else if before.isNone && r.columns.length == 1 &&
      (columnBefore old (r.columns.headD []) renames).isNone then {}
  else
    match carried Reference.name (sameReferenceThrough renames) true old.references t.references r
      renames with
    | some was =>
      if D.canAlterConstraint then .step { sql := ddl.renameConstraint t was r.name } else {}
    | none =>
      .problem {
        table := t.table
        column := plainList r.columns
        text := ascii "the foreign key " ++ r.name ++
          ascii (" is new or changed, and the table already exists. " ++
            "Adding one in a single statement locks the table and scans every row " ++
            "in it. Write it as a step, in two: `ALTER TABLE \"") ++ t.table ++
          ascii "\" ADD CONSTRAINT \"" ++ r.name ++ ascii "\" FOREIGN KEY (" ++ quotedList r.columns ++
          ascii ") REFERENCES \"" ++ r.table ++ ascii "\" (" ++ quotedList r.targets ++
          ascii ") NOT VALID`, then `ALTER TABLE \"" ++ t.table ++ ascii "\" VALIDATE CONSTRAINT \"" ++
          r.name ++ ascii "\"`. SQLite has neither statement and needs the table rebuilt." }

def diffGoneReference (t : Desc) (renames : List Rename) (o : Reference) : Diff :=
  if (findByName Reference.name t.references o.name).isSome then {}
  else if renamedIn (sameReferenceThrough renames) o t.references renames then {}
  else
    .problem {
      table := t.table
      column := plainList o.columns
      text := ascii "the foreign key " ++ o.name ++
        ascii " is gone from the types and is still on the table. `ALTER TABLE \"" ++ t.table ++
        ascii "\" DROP CONSTRAINT \"" ++ o.name ++
        ascii "\"` is the Postgres half; SQLite needs the table rebuilt. Write it as a step." }

/-! ## One table, and all of them -/

/-- Renames come first, and everything after reads the table as though they had run; what is
going goes before a column that is going. -/
def diffTable (D : Dialect) (t old : Desc) : Diff :=
  let renames := renamesOf t old
  let early := earlyTriggers t old (retypedOf D t old renames)
  let down := early.map NamedText.name
  .each t.renames (diffRename t old) ++
  .each early (fun o => .step { sql := ddl.dropTrigger D t o.name }) ++
  .each t.columns (diffColumn D t old renames) ++
  .each t.checks (diffCheck D t old) ++
  .each old.checks (diffGoneCheck D t) ++
  .each t.triggers (diffTrigger D t old down) ++
  .each old.triggers (diffGoneTrigger D t down) ++
  .each old.uniques (diffGoneIndex Unique.name (sameUniqueThrough renames) D t t.uniques renames) ++
  .each old.indexes (diffGoneIndex Index.name (sameIndexThrough renames) D t t.indexes renames) ++
  .each old.columns (diffGoneColumn t renames) ++
  .each t.uniques (diffIndex Unique.name (sameUniqueThrough renames) D t old.uniques t.uniques renames) ++
  .each t.indexes (diffIndex Index.name (sameIndexThrough renames) D t old.indexes t.indexes renames) ++
  .each t.references (diffReference D t old renames) ++
  .each old.references (diffGoneReference t renames)

/-- A table nothing has made yet: the table, its indexes, then its triggers. -/
def createAll (t : Desc) : Diff :=
  .step { sql := (ddl.createdFor t).table } ++
  .each (ddl.createdFor t).indexes (fun made => .step { sql := made.sql }) ++
  .each (ddl.createdFor t).triggers (fun made => .step { sql := made.sql })

/-- One turn of the loop over the tables of the types. A table this program reads and does not
build is passed over. -/
def planTable (D : Dialect) (before : Doc) (t : Desc) : Diff :=
  if !t.managed then {}
  else
    match before.table t.relation with
    | none => createAll t
    | some old => diffTable D t old

/-- Whether a view over the table has to come down: a column dropped, renamed or retyped. -/
def shapes (d : Diff) : Bool :=
  d.steps.any fun s =>
    match s.kind with
    | .dropColumn | .renameColumn | .changeType => true
    | _ => false

/-- Whether the types still list a table of the snapshot. -/
def has (desired : List Desc) (old : Desc) : Bool := desired.any (·.relation == old.relation)

/-- The tables the snapshot has and the types do not, the last made first. -/
def goneTables (desired : Desired) (before : Doc) : List Desc :=
  before.tables.reverse.filter fun old => !has desired.tables old

/-- The tables changed under a view. -/
def shapedOf (D : Dialect) (desired : Desired) (before : Doc) : List Bytes :=
  ((desired.tables.filter fun t =>
      t.managed && (before.table t.relation).any fun old => shapes (diffTable D t old)).map Desc.table) ++
    (goneTables desired before).map Desc.table

def readsAny (body : Bytes) (tables : List Bytes) : Bool := tables.any (mentions body ·)

/-- Which views come down and go back up: one whose text moved, one that reads a table whose
columns move, one that reads an earlier one coming down. -/
def remadeOf (before : Doc) (shaped : List Bytes) : List (NamedText × Bool) → List NamedText →
    List (NamedText × Bool)
  | earlier, [] => earlier
  | earlier, v :: rest =>
    let again := (findByName NamedText.name before.views v.name).any fun old =>
      !old.sameAs v || readsAny v.body shaped ||
        earlier.any fun e => e.2 && mentions v.body e.1.name
    remadeOf before shaped (earlier ++ [(v, again)]) rest

def dropViewStep (remade : List (NamedText × Bool)) (old : NamedText) : Diff :=
  match remade.find? (·.1.name == old.name) with
  | some (_, false) => {}
  | _ => .step { sql := ddl.dropView old.name }

def createViewStep (before : Doc) (v : NamedText × Bool) : Diff :=
  if (findByName NamedText.name before.views v.1.name).isSome && !v.2 then {}
  else .step { sql := ddl.createView v.1 }

def createExtensionStep (before : Doc) (name : Bytes) : Diff :=
  if before.extensions.contains name then {} else .step { sql := ddl.createExtension name }

def createFunctionStep (before : Doc) (f : NamedText) : Diff :=
  if (findByName NamedText.name before.functions f.name).any (·.sameAs f) then {}
  else .step { sql := { what := .createFunction f } }

def dropFunctionStep (desired : Desired) (old : NamedText) : Diff :=
  if (findByName NamedText.name desired.functions old.name).isSome then {}
  else .step { sql := ddl.dropFunction old.name }

def dropExtensionStep (desired : Desired) (name : Bytes) : Diff :=
  if desired.extensions.contains name then {}
  else
    .step {
      sql := ddl.dropExtension name
      destructive := true
      target := ascii "extension:" ++ name }

def dropTableStep (old : Desc) : Diff :=
  .step { sql := ddl.dropTable old, destructive := true, target := targetOf old.relation none }

/-- The snapshot is spelled in the other dialect. -/
def Mismatched (D : Dialect) (before : Doc) : Prop :=
  0 < before.tables.length ∧ before.dialect ≠ D.name

instance (D : Dialect) (before : Doc) : Decidable (Mismatched D before) :=
  inferInstanceAs (Decidable (_ ∧ _))

/-- The whole plan: views come down, extensions and functions go in, the tables move, views go
back up, functions and extensions go. -/
def planOf (D : Dialect) (desired : Desired) (before : Doc) : Diff :=
  if Mismatched D before then
    .problem {
      table := []
      text := ascii "the snapshot was written against the " ++ before.dialect ++
        ascii " dialect and these types are being read as " ++ D.name ++
        ascii (". Every column would look changed, because `int8` " ++
          "and `INTEGER` are the same column and not the same text.") }
  else
    let remade := remadeOf before (shapedOf D desired before) [] desired.views
    .each before.views.reverse (dropViewStep remade) ++
    .each desired.extensions (createExtensionStep before) ++
    .each desired.functions (createFunctionStep before) ++
    .each desired.tables (planTable D before) ++
    .each (goneTables desired before) dropTableStep ++
    .each remade (createViewStep before) ++
    .each before.functions (dropFunctionStep desired) ++
    .each before.extensions (dropExtensionStep desired)

inductive PlanError where
  /-- An identifier nothing can be quoted around, in a snapshot somebody edited. -/
  | badIdentifier
deriving DecidableEq, Repr

/-- `plan`: the steps and the Problems, or the error of the first statement that cannot be
written. -/
def plan (D : Dialect) (desired : Desired) (before : Doc) : Except PlanError Diff :=
  if (planOf D desired before).steps.all fun s => s.sql.idents.all writable then
    .ok (planOf D desired before)
  else .error .badIdentifier

theorem planOf_mismatched {D : Dialect} {desired : Desired} {before : Doc} (h : Mismatched D before) :
    (planOf D desired before).steps = [] := by
  unfold planOf
  rw [if_pos h]
  rfl

theorem plan_ok {D : Dialect} {desired : Desired} {before : Doc} {p : Diff}
    (h : plan D desired before = .ok p) : p = planOf D desired before := by
  unfold plan at h
  split at h
  · exact (Except.ok.inj h).symm
  · cases h

end Nilo.Sql
