import Nilo.Std.Sha256

/-!
# What a table is (`sql/table.zig`, `sql/snapshot.zig`)

A table as its Row describes it and as a snapshot records it: one shape for both, so that a diff
compares like with like. The texts only the database reads (checks, triggers, functions, views)
are compared by a digest, which is all the snapshot keeps of them.
-/

namespace Nilo.Sql

open Text (Bytes ascii utf8)

/-! ## The parts of a table -/

/-- The two databases, as far as a diff asks (`dialect.zig`). -/
inductive Dialect where
  | postgres
  | sqlite
deriving DecidableEq, Repr

namespace Dialect

def name : Dialect → Bytes
  | postgres => ascii "postgres"
  | sqlite => ascii "sqlite"

def canAlterColumn : Dialect → Bool
  | postgres => true
  | sqlite => false

def canAlterConstraint : Dialect → Bool
  | postgres => true
  | sqlite => false

def canBuildConcurrently : Dialect → Bool
  | postgres => true
  | sqlite => false

def hasExtensions : Dialect → Bool
  | postgres => true
  | sqlite => false

def hasFunctions : Dialect → Bool
  | postgres => true
  | sqlite => false

end Dialect

/-- What happens to a referencing row when the row it points at is deleted. -/
inductive OnDelete where
  | noAction
  | cascade
  | restrict
  | setNull
deriving DecidableEq, Repr

structure Column where
  name : Bytes
  sqlType : Bytes
  nullable : Bool := false
  /-- Whether `.key` names this column. -/
  key : Bool := false
  /-- The database makes the value. -/
  generated : Bool := false
  default : Option Bytes := none
  /-- The words an enum column may hold; they become a check. -/
  values : List Bytes := []
  /-- The name that check goes in under, when `.check` gave it one. -/
  check : Bytes := []
deriving DecidableEq, Repr

structure Unique where
  name : Bytes
  columns : List Bytes
  ignoringCase : Bool := false
deriving DecidableEq, Repr

structure Index where
  name : Bytes
  columns : List Bytes
  /-- Which of `columns` are read the other way up. -/
  descending : List Bytes := []
  /-- The `WHERE` of a partial index, or empty. -/
  where_ : Bytes := []
deriving DecidableEq, Repr

structure Reference where
  name : Bytes
  columns : List Bytes
  schema : Option Bytes := none
  table : Bytes
  targets : List Bytes
  onDelete : OnDelete := .noAction
deriving DecidableEq, Repr

/-- An object whose name the compiler checks and whose body only the database can read: a check,
a trigger (in two halves), a function or a view. -/
structure NamedText where
  name : Bytes
  /-- Empty in a snapshot, where `hash` is what a diff compares. -/
  body : Bytes := []
  tail : Bytes := []
  hash : Bytes := []
deriving DecidableEq, Repr

structure Rename where
  from_ : Bytes
  to_ : Bytes
deriving DecidableEq, Repr

/-- One table, entirely. -/
structure Desc where
  row : Bytes := []
  schema : Option Bytes := none
  table : Bytes
  keys : List Bytes
  columns : List Column
  uniques : List Unique := []
  indexes : List Index := []
  references : List Reference := []
  checks : List NamedText := []
  triggers : List NamedText := []
  renames : List Rename := []
  /-- Whether this program builds the table. -/
  managed : Bool := true
deriving DecidableEq, Repr

/-! ## Comparing them -/

/-- Two sets of words, in any order. -/
def sameWords (a b : List Bytes) : Bool := a.length == b.length && a.all fun x => b.any (x == ·)

/-- Whether two columns describe the same thing, their names apart. -/
def Column.sameAs (c d : Column) : Bool :=
  c.sqlType == d.sqlType && c.nullable == d.nullable && c.key == d.key &&
    c.generated == d.generated && c.default == d.default && sameWords c.values d.values &&
    c.check == d.check

def Column.checkNamed (c : Column) : Bool := 0 < c.check.length

/-- Sixteen hex characters of the SHA-256 of both halves of a text. -/
def digestOf (body tail : Bytes) : Bytes :=
  (Sha256.hex (Sha256.hash (body ++ 0 :: tail))).take 16

/-- What this text compares as, from whichever half it has. -/
def NamedText.digest (n : NamedText) : Bytes :=
  if 0 < n.hash.length then n.hash.take 16 else digestOf n.body n.tail

def NamedText.sameAs (n m : NamedText) : Bool := n.digest == m.digest

def Desc.column (t : Desc) (name : Bytes) : Option Column := t.columns.find? (·.name == name)

/-- The name a table goes by: its schema, and its own. -/
structure Relation where
  schema : Option Bytes
  table : Bytes
deriving DecidableEq, Repr

def Desc.relation (t : Desc) : Relation := ⟨t.schema, t.table⟩

/-- The name nilo gives a constraint it creates. -/
def constraintName (table : Bytes) (columns : List Bytes) (suffix : Bytes) : Bytes :=
  table ++ columns.flatMap (fun c => ascii "_" ++ c) ++ ascii "_" ++ suffix

/-- What the check over a column's words is called. -/
def checkName (table : Bytes) (c : Column) : Bytes :=
  if c.checkNamed then c.check else constraintName table [c.name] (ascii "check")

/-! ## The snapshot -/

/-- The whole of `snapshot.zon`. -/
structure Doc where
  version : Nat := 0
  dialect : Bytes
  tables : List Desc := []
  extensions : List Bytes := []
  functions : List NamedText := []
  views : List NamedText := []
deriving DecidableEq, Repr

def Doc.table (doc : Doc) (r : Relation) : Option Desc := doc.tables.find? (·.relation == r)

/-- A repository that has generated nothing yet. -/
def Doc.empty (D : Dialect) : Doc := { dialect := D.name }

/-- The tables in create order, and the objects beside them: the desired half of every diff. -/
structure Desired where
  tables : List Desc
  extensions : List Bytes := []
  functions : List NamedText := []
  views : List NamedText := []

/-- The named texts as a snapshot records them: the name, and the digest. -/
def hashedOnly (list : List NamedText) : List NamedText :=
  list.map fun n => { name := n.name, hash := n.digest }

/-- A table as a snapshot records it: neither the Zig type's name nor the renames go in. -/
def Desc.recorded (t : Desc) : Desc :=
  { t with
    row := []
    renames := []
    checks := hashedOnly t.checks
    triggers := hashedOnly t.triggers }

/-- The snapshot these tables would be written down as. -/
def snapshotOf (D : Dialect) (version : Nat) (desired : Desired) : Doc where
  version := version
  dialect := D.name
  tables := desired.tables.map Desc.recorded
  extensions := desired.extensions
  functions := hashedOnly desired.functions
  views := hashedOnly desired.views

/-! ## Its file -/

/-- v0.4.0's foreign key: one column each side. -/
structure OlderReference where
  name : Bytes
  column : Bytes
  schema : Option Bytes := none
  table : Bytes
  target : Bytes
  onDelete : OnDelete := .noAction

structure OlderTable where
  row : Bytes := []
  schema : Option Bytes := none
  table : Bytes
  keys : List Bytes
  columns : List Column
  uniques : List Unique := []
  indexes : List Index := []
  references : List OlderReference := []
  managed : Bool := true

structure Older where
  version : Nat := 0
  dialect : Bytes
  tables : List OlderTable := []

/-- `std.zon`, as far as the snapshot uses it. -/
structure Zon where
  serialize : Doc → Bytes
  fromSlice : Bytes → Option Doc
  fromSliceOlder : Bytes → Option Older

/-- Where a `Doc` was written in the shape this version writes, or in an older one. -/
inductive Origin where
  | current
  | upgraded
deriving DecidableEq, Repr

/-- The lines the file opens with. -/
def header : Bytes := utf8 <|
  "// Written by `db generate`, and committed.\n//\n" ++
  "// This is what the last generate believed the schema was. It is the other\n" ++
  "// half of every diff, which is why a generate needs no database — and why\n" ++
  "// two branches that both generate will conflict here rather than at deploy.\n" ++
  "// Editing it by hand is allowed; the next generate rewrites it.\n\n"

def render (zon : Zon) (doc : Doc) : Bytes := header ++ zon.serialize doc ++ ascii "\n"

def OlderReference.upgraded (r : OlderReference) : Reference :=
  { r with columns := [r.column], targets := [r.target] }

def OlderTable.upgraded (t : OlderTable) : Desc :=
  { t with row := [], references := t.references.map OlderReference.upgraded }

def Older.upgraded (old : Older) : Doc := { old with tables := old.tables.map OlderTable.upgraded }

/-- Read one back, in the current shape or else in the older. -/
def parseWith (zon : Zon) (text : Bytes) : Option (Doc × Origin) :=
  match zon.fromSlice text with
  | some doc => some (doc, .current)
  | none => (zon.fromSliceOlder text).map fun old => (old.upgraded, .upgraded)

def parse (zon : Zon) (text : Bytes) : Option Doc := (parseWith zon text).map Prod.fst

end Nilo.Sql
