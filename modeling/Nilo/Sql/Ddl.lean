import Nilo.Sql.Table

/-!
# Statements and their names (`sql/ddl.zig`, the texts of `sql/migrate.zig`)

The statements a plan is made of, each as what it says rather than as its text, with the
identifiers `writeIdent` quotes on the way: one that cannot be quoted fails the whole plan. Then
what the diff reads out of texts: whether a text names a table or a column, a partial index's
`WHERE` through renames, and whether one type holds every value of another.
-/

namespace Nilo.Sql

open Text

/-! ## Statements -/

/-- What a statement does. An index is called by its schema and its own name; the table it is on
comes along. -/
inductive Statement where
  | createTable (t : Desc)
  | dropTable (r : Relation)
  | addColumn (r : Relation) (c : Column) (key : Option Reference)
  | dropColumn (r : Relation) (name : Bytes)
  | renameColumn (r : Relation) (was now : Bytes)
  | alterType (r : Relation) (column type : Bytes)
  | alterNullability (r : Relation) (column : Bytes) (nullable : Bool)
  | alterDefault (r : Relation) (column : Bytes) (default : Option Bytes)
  | addCheck (r : Relation) (name column : Bytes) (values : List Bytes)
  | addNamedCheck (r : Relation) (ck : NamedText)
  /-- `dropCheck` and `dropConstraint`. -/
  | dropCheck (r : Relation) (name : Bytes)
  /-- `renameCheck` and `renameConstraint`. -/
  | renameConstraint (r : Relation) (was now : Bytes)
  | createUnique (r : Relation) (u : Unique)
  | createIndex (r : Relation) (x : Index)
  | dropIndex (r : Relation) (name : Bytes)
  | renameIndex (r : Relation) (was now : Bytes)
  | createTrigger (r : Relation) (tr : NamedText)
  | dropTrigger (r : Relation) (name : Bytes)
  | createExtension (name : Bytes)
  | dropExtension (name : Bytes)
  | createFunction (f : NamedText)
  | dropFunction (name : Bytes)
  | createView (v : NamedText)
  | dropView (name : Bytes)
deriving DecidableEq, Repr

inductive Kind where
  | createTable
  | dropTable
  | addColumn
  | dropColumn
  | renameColumn
  | changeType
  | changeNull
  | changeDefault
  | dropCheck
  | createCheck
  | createIndex
  | dropIndex
  | renameIndex
  | renameConstraint
  | createTrigger
  | dropTrigger
  | createExtension
  | dropExtension
  | createFunction
  | dropFunction
  | createView
  | dropView
deriving DecidableEq, Repr

def Statement.kind : Statement → Kind
  | createTable _ => .createTable
  | dropTable _ => .dropTable
  | addColumn .. => .addColumn
  | dropColumn .. => .dropColumn
  | renameColumn .. => .renameColumn
  | alterType .. => .changeType
  | alterNullability .. => .changeNull
  | alterDefault .. => .changeDefault
  | addCheck .. | addNamedCheck .. => .createCheck
  | dropCheck .. => .dropCheck
  | renameConstraint .. => .renameConstraint
  | createUnique .. | createIndex .. => .createIndex
  | dropIndex .. => .dropIndex
  | renameIndex .. => .renameIndex
  | createTrigger .. => .createTrigger
  | dropTrigger .. => .dropTrigger
  | createExtension _ => .createExtension
  | dropExtension _ => .dropExtension
  | createFunction _ => .createFunction
  | dropFunction _ => .dropFunction
  | createView _ => .createView
  | dropView _ => .dropView

/-- The table a statement makes, changes or drops, its indexes and triggers with it. -/
def Statement.touches : Statement → Option Relation
  | createTable t => some t.relation
  | dropTable r | addColumn r .. | dropColumn r _ | renameColumn r .. | alterType r ..
  | alterNullability r .. | alterDefault r .. | addCheck r .. | addNamedCheck r _ | dropCheck r _
  | renameConstraint r .. | createUnique r _ | createIndex r _ | dropIndex r _ | renameIndex r ..
  | createTrigger r _ | dropTrigger r _ => some r
  | createExtension _ | dropExtension _ | createFunction _ | dropFunction _ | createView _
  | dropView _ => none

/-- A statement, and the identifiers it is written with at run time. -/
structure Sql where
  what : Statement
  idents : List Bytes := []
deriving DecidableEq, Repr

/-- What `writeIdent` takes: not empty, and no quote in it. -/
def writable (ident : Bytes) : Bool := 0 < ident.length && !ident.contains 34

namespace ddl

/-- `alterTail`. -/
def relationIdents (t : Desc) : List Bytes := t.schema.toList ++ [t.table]

/-- `writeCheckIdent`. -/
def checkIdents (t : Desc) (c : Column) : List Bytes :=
  if c.checkNamed then [c.check] else [t.table, c.name]

/-- The key of one column that is over `column`, which is written with it. -/
def newColumnKey (t : Desc) (column : Bytes) : Option Reference :=
  t.references.find? fun r => r.columns == [column]

def addColumn (t : Desc) (c : Column) : Sql where
  what := .addColumn t.relation c (newColumnKey t c.name)
  idents := relationIdents t ++ [c.name] ++ (if 0 < c.values.length then checkIdents t c else []) ++
    (newColumnKey t c.name).toList.flatMap fun r => r.schema.toList ++ [r.table] ++ r.targets.take 1

def dropColumn (t : Desc) (name : Bytes) : Sql :=
  ⟨.dropColumn t.relation name, relationIdents t ++ [name]⟩

def renameColumn (t : Desc) (was now : Bytes) : Sql :=
  ⟨.renameColumn t.relation was now, relationIdents t ++ [was, now]⟩

def alterType (t : Desc) (c : Column) : Sql :=
  ⟨.alterType t.relation c.name c.sqlType, relationIdents t ++ [c.name]⟩

def alterNullability (t : Desc) (c : Column) : Sql :=
  ⟨.alterNullability t.relation c.name c.nullable, relationIdents t ++ [c.name]⟩

def alterDefault (t : Desc) (c : Column) : Sql :=
  ⟨.alterDefault t.relation c.name c.default, relationIdents t ++ [c.name]⟩

/-- By the column as the snapshot had it, which is the name the check is in the database under. -/
def dropCheck (t : Desc) (was : Column) : Sql :=
  ⟨.dropCheck t.relation (checkName t.table was), relationIdents t ++ checkIdents t was⟩

def dropConstraint (t : Desc) (name : Bytes) : Sql :=
  ⟨.dropCheck t.relation name, relationIdents t ++ [name]⟩

def addCheck (t : Desc) (c : Column) : Sql :=
  ⟨.addCheck t.relation (checkName t.table c) c.name c.values,
    relationIdents t ++ checkIdents t c ++ [c.name]⟩

def addNamedCheck (t : Desc) (ck : NamedText) : Sql :=
  ⟨.addNamedCheck t.relation ck, relationIdents t ++ [ck.name]⟩

def createTrigger (t : Desc) (tr : NamedText) : Sql :=
  ⟨.createTrigger t.relation tr, tr.name :: relationIdents t⟩

def dropTrigger (D : Dialect) (t : Desc) (name : Bytes) : Sql :=
  ⟨.dropTrigger t.relation name, name :: if D = .postgres then relationIdents t else []⟩

def dropIndex (t : Desc) (name : Bytes) : Sql :=
  ⟨.dropIndex t.relation name, t.schema.toList ++ [name]⟩

def renameIndex (t : Desc) (was now : Bytes) : Sql :=
  ⟨.renameIndex t.relation was now, t.schema.toList ++ [was, now]⟩

def renameConstraint (t : Desc) (was now : Bytes) : Sql :=
  ⟨.renameConstraint t.relation was now, relationIdents t ++ [was, now]⟩

/-- From `<table>_<was>_check` to `<table>_<now>_check`. -/
def renameCheck (t : Desc) (was now : Bytes) : Sql :=
  ⟨.renameConstraint t.relation (constraintName t.table [was] (ascii "check"))
      (constraintName t.table [now] (ascii "check")),
    relationIdents t ++ [t.table, was, t.table, now]⟩

def dropTable (t : Desc) : Sql := ⟨.dropTable t.relation, relationIdents t⟩

def createExtension (name : Bytes) : Sql := ⟨.createExtension name, [name]⟩

def dropExtension (name : Bytes) : Sql := ⟨.dropExtension name, [name]⟩

def dropFunction (name : Bytes) : Sql := ⟨.dropFunction name, [name]⟩

def createView (v : NamedText) : Sql := ⟨.createView v, [v.name]⟩

def dropView (name : Bytes) : Sql := ⟨.dropView name, [name]⟩

/-- A statement with the name of what it makes, written while compiling. -/
structure Named where
  name : Bytes
  sql : Sql

/-- The `CREATE TABLE` and every index and trigger that goes with it. -/
structure Created where
  table : Sql
  indexes : List Named
  triggers : List Named

def createdFor (t : Desc) : Created where
  table := { what := .createTable t }
  indexes :=
    (t.uniques.map fun u => ⟨u.name, { what := .createUnique t.relation u }⟩) ++
      t.indexes.map fun x => ⟨x.name, { what := .createIndex t.relation x }⟩
  triggers := t.triggers.map fun tr => ⟨tr.name, { what := .createTrigger t.relation tr }⟩

end ddl

/-! ## Reading texts -/

def identByte (ch : UInt8) : Bool := isAlphanumeric ch || ch == 95 || ch == 36

/-- Whether `text` names `name` as a whole identifier, without regard to case. -/
def mentions (text name : Bytes) : Bool :=
  0 < name.length && name.length ≤ text.length &&
    (List.range (text.length - name.length + 1)).any fun start =>
      eqlIgnoreCase ((text.drop start).take name.length) name &&
        (start == 0 || !identByte (text.getD (start - 1) 0)) &&
        (start + name.length == text.length || !identByte (text.getD (start + name.length) 0))

def mentionsAny (text : Bytes) (names : List Bytes) : Bool := names.any (mentions text ·)

/-- `std.mem.replace` of a needle that is not empty, `skip` bytes of the one found last to go. -/
def replaceFrom (needle put : Bytes) : Nat → Bytes → Bytes
  | _, [] => []
  | skip + 1, _ :: rest => replaceFrom needle put skip rest
  | 0, ch :: rest =>
    if needle.isPrefixOf (ch :: rest) then put ++ replaceFrom needle put (needle.length - 1) rest
    else ch :: replaceFrom needle put 0 rest

/-- A column's name after `renames`. -/
def renamedTo (renames : List Rename) (name : Bytes) : Bytes :=
  match renames.find? (·.from_ == name) with
  | some r => r.to_
  | none => name

/-- Two column lists, the first read through `renames`. -/
def sameColumnsThrough (was now : List Bytes) (renames : List Rename) : Bool :=
  was.map (renamedTo renames) == now

def quoted (name : Bytes) : Bytes := 34 :: name ++ [34]

/-- A partial index's `WHERE` with every renamed column's quoted name replaced. -/
def whereThrough (where_ : Bytes) (renames : List Rename) : Bytes :=
  renames.foldl (fun out r => replaceFrom (quoted r.from_) (quoted r.to_) 0 out) where_

/-! ## Types that hold every value of another -/

/-- `std.fmt.parseInt(u32, text, 10)`. -/
def parseU32 (text : Bytes) : Option Nat :=
  let (negative, digits) :=
    match text with
    | 43 :: rest => (false, rest)
    | 45 :: rest => (true, rest)
    | _ => (false, text)
  if digits = [] ∨ digits.head? = some 95 ∨ digits.getLast? = some 95 then none
  else
    let shown := digits.filter (· != 95)
    if !shown.all isDigit then none
    else if negative then if decimal shown = 0 then some 0 else none
    else if decimal shown < 2 ^ 32 then some (decimal shown) else none

def trimSpaces (text : Bytes) : Bytes :=
  ((text.dropWhile (· == 32)).reverse.dropWhile (· == 32)).reverse

/-- What is between the brackets of `head(…)`. -/
def bracketed (head sqlType : Bytes) : Option Bytes :=
  if !sqlType.contains 40 then none
  else if sqlType.takeWhile (· != 40) != head then none
  else
    let rest := (sqlType.dropWhile (· != 40)).drop 1
    if !rest.contains 41 then none else some (rest.takeWhile (· != 41))

/-- The `n` of `varchar(n)`. -/
def varcharLength (sqlType : Bytes) : Option Nat :=
  (bracketed (ascii "varchar") sqlType).bind fun n => parseU32 (trimSpaces n)

structure Precision where
  digits : Nat
  scale : Nat

/-- The `p` and `s` of `numeric(p, s)`; `numeric(p)` has a scale of nought. -/
def precision (sqlType : Bytes) : Option Precision := do
  let inside ← bracketed (ascii "numeric") sqlType
  let p ← parseU32 (trimSpaces (inside.takeWhile (· != 44)))
  let s ←
    if inside.contains 44 then
      parseU32 (trimSpaces (((inside.dropWhile (· != 44)).drop 1).takeWhile (· != 44)))
    else some 0
  if s > p then none else some ⟨p, s⟩

def rank (list : List Bytes) (name : Bytes) : Option Nat := list.findIdx? (· == name)

/-- Whether every value `was` can hold is a value `now` holds unchanged. -/
def widens (was now : Bytes) : Bool :=
  let ints := [ascii "int2", ascii "int4", ascii "int8"]
  match rank ints was with
  | some f =>
    match rank ints now with
    | some g => f < g
    | none => now == ascii "numeric"
  | none =>
    if was == ascii "float4" then now == ascii "float8"
    else if startsWith was (ascii "numeric") then
      if now == ascii "numeric" then true
      else
        match precision was, precision now with
        | some f, some g => f.scale ≤ g.scale && f.digits - f.scale ≤ g.digits - g.scale
        | _, _ => false
    else if startsWith was (ascii "varchar") then
      if now == ascii "text" || now == ascii "varchar" then true
      else
        match varcharLength was, varcharLength now with
        | some f, some g => f ≤ g
        | _, _ => false
    else false

end Nilo.Sql
