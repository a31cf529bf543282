import Nilo.Sql.Table

/-!
# What the compiler refuses (`descOf` in `sql/table.zig`, `assertSchema` and `orderOf` in `sql/migrate.zig`)

A Row that does not describe a table stops while compiling, and so does a schema with an entry
written wrong. What is left of those checks here is what they promise of the values: the names
within one table are distinct, a rename goes from a name the table no longer has to one it has,
every list of columns names columns, and an index's name belongs to one table of its schema.
-/

namespace Nilo.Sql

open Text

def indexNames (t : Desc) : List Bytes := t.uniques.map Unique.name ++ t.indexes.map Index.name

/-- Every constraint of a table by name, the check over an enum column's words under whichever name
it ends up with. -/
def constraintNames (t : Desc) : List Bytes :=
  indexNames t ++ t.references.map Reference.name ++ t.checks.map NamedText.name ++
    (t.columns.filter (0 < ·.values.length)).map (checkName t.table)

/-- Every one of `names` is a column. -/
def Desc.HasColumns (t : Desc) (names : List Bytes) : Prop := ∀ name ∈ names, (t.column name).isSome

instance (t : Desc) (names : List Bytes) : Decidable (t.HasColumns names) :=
  inferInstanceAs (Decidable (∀ name ∈ names, (t.column name).isSome))

/-- What `descOf` lets through. -/
structure Desc.Checked (t : Desc) : Prop where
  /-- The columns are the fields of one struct, and the unread ones beside them. -/
  columns : (t.columns.map Column.name).Nodup
  keys : t.keys.Nodup
  keysAre : t.HasColumns t.keys
  keyed : ∀ c ∈ t.columns, c.key = t.keys.contains c.name
  required : ∀ c ∈ t.columns, c.key = true → c.nullable = false
  generated : ∀ c ∈ t.columns, c.generated = true →
    c.key = true ∧ t.keys.length = 1 ∧ c.default = none
  /-- `.words_of` names a column that has words. -/
  words : ∀ c ∈ t.columns, c.checkNamed → 0 < c.values.length
  /-- `assertNamesDistinct`. -/
  names : (constraintNames t).Nodup
  uniques : ∀ u ∈ t.uniques, t.HasColumns u.columns
  indexes : ∀ x ∈ t.indexes, t.HasColumns x.columns ∧ ∀ d ∈ x.descending, d ∈ x.columns
  references : ∀ r ∈ t.references,
    t.HasColumns r.columns ∧ 0 < r.columns.length ∧ r.columns.length = r.targets.length
  /-- The triggers are the fields of one struct. -/
  triggers : (t.triggers.map NamedText.name).Nodup
  renamed : (t.renames.map Rename.to_).Nodup
  renames : ∀ r ∈ t.renames, (t.column r.to_).isSome ∧ t.column r.from_ = none

/-- What is after `CREATE OR REPLACE FUNCTION`, when a text begins so. -/
def functionHead (body : Bytes) : Option Bytes :=
  [ascii "CREATE", ascii "OR", ascii "REPLACE", ascii "FUNCTION"].foldl
    (fun rest word => rest.bind fun rest =>
      if startsWithIgnoreCase rest word then some ((rest.drop word.length).dropWhile isWhitespace)
      else none)
    (some (body.dropWhile isWhitespace))

def beginsWithFunctionHead (f : NamedText) : Bool :=
  (functionHead f.body).any fun rest =>
    startsWith rest f.name || startsWith rest (ascii "\"" ++ f.name ++ ascii "\"")

def quotedHead (f : NamedText) : Bool := (functionHead f.body).any (startsWith · (ascii "\""))

/-- What `assertSchema` and `orderOf` let through. Nothing there refuses two Rows over one table,
two functions of one name or two views of one name. -/
structure Desired.Checked (D : Dialect) (desired : Desired) : Prop where
  tables : ∀ t ∈ desired.tables, t.Checked
  extensions : ∀ name ∈ desired.extensions, D.hasExtensions = true ∧ 0 < name.length
  functions : ∀ f ∈ desired.functions, D.hasFunctions = true ∧ 0 < f.name.length ∧
    beginsWithFunctionHead f = true ∧ (f.name = f.name.map toLower ∨ quotedHead f = true)
  views : ∀ v ∈ desired.views, 0 < v.name.length ∧ 0 < (trim v.body).length ∧
    startsWithIgnoreCase (trim v.body) (ascii "CREATE") = false
  /-- `assertIndexNamesDiffer`. -/
  indexNames : desired.tables.Pairwise fun t other =>
    t.schema = other.schema → List.Disjoint (indexNames t) (indexNames other)
  /-- No table points at one made after it. -/
  order : desired.tables.Pairwise fun t other =>
    ∀ r ∈ t.references, (⟨r.schema, r.table⟩ : Relation) ≠ other.relation

end Nilo.Sql
