import TableAlteration.Field.Property

namespace TableAlteration

/-- The element at `start` goes to position `target` of the remaining ones, or to their end. -/
def moveWithin {α : Type} (l : List α) (start target : Nat) : List α :=
  match l[start]? with
  | none => l
  | some x => let rest := l.eraseIdx start; rest.insertIdx (min target rest.length) x

structure Index where
  name : String
  columns : List String
  unique : Bool
  deriving DecidableEq, Repr

structure Table where
  name : String
  fields : List Field := []
  indexes : List Index := []
  deriving DecidableEq

namespace Table

def addField (t : Table) (f : Field) : Table := { t with fields := t.fields ++ [f] }

def addIndex (t : Table) (i : Index) : Table := { t with indexes := t.indexes ++ [i] }

/-- The position of the first field with that name, whatever its case. -/
def fieldIndex? (t : Table) (name : String) : Option Nat :=
  t.fields.findIdx? fun f => Text.sameName f.name name

def field? (t : Table) (name : String) : Option Field :=
  t.fields.find? fun f => Text.sameName f.name name

/-- Names of the key's fields, in field order. -/
def primaryKey (t : Table) : List String :=
  (t.fields.filter (·.constraints.primaryKey)).map (·.name)

/-- Index columns with the old name take the new one. `none` if there is no such field. -/
def renameField? (t : Table) (i : Nat) (name : String) : Option Table :=
  t.fields[i]?.map fun f =>
    { t with
      fields := t.fields.set i { f with name := name }
      indexes := t.indexes.map fun x =>
        { x with columns := x.columns.map fun c => if Text.sameName c f.name then name else c } }

/-- Where a field ends up that is to be inserted at `i`: behind the last one at most. -/
def insertPosition (t : Table) (i : Nat) : Nat := min i t.fields.length

def insertField (t : Table) (i : Nat) (f : Field) : Table :=
  { t with fields := t.fields.insertIdx (t.insertPosition i) f }

/-- The removed field, and the table without it. Its column leaves all indexes, and indexes
without columns are dropped. -/
def removeField? (t : Table) (i : Nat) : Option (Field × Table) :=
  t.fields[i]?.map fun f =>
    let narrowed := t.indexes.map fun x =>
      { x with columns := x.columns.filter fun c => !Text.sameName c f.name }
    let indexes := narrowed.filter fun x => !x.columns.isEmpty
    (f, { t with fields := t.fields.eraseIdx i, indexes })

/-- The final position of the moved field, and the table with it there. -/
def moveField? (t : Table) (start target : Nat) : Option (Nat × Table) :=
  if start < t.fields.length then
    some (min target (t.fields.length - 1),
      { t with fields := moveWithin t.fields start target })
  else none

/-- Whether a declared index is on exactly that column. -/
def isCovered (t : Table) (column : String) : Bool :=
  t.indexes.any fun x =>
    match x.columns with
    | [c] => Text.sameName c column
    | _ => false

def impliedIndex (t : Table) (f : Field) : Index :=
  ⟨t.name ++ "_" ++ f.name ++ "_idx", [f.name], false⟩

/-- The declared indexes, and one more for each indexed field that is neither a primary key nor
covered by a declared one. -/
def effectiveIndexes (t : Table) : List Index :=
  t.indexes ++ (t.fields.filter fun f =>
    f.constraints.indexed && !f.constraints.primaryKey && !t.isCovered f.name).map t.impliedIndex

/-- The first name that repeats an earlier one, whatever its case. -/
def repeatedName? (seen : List String) : List String → Option String
  | [] => none
  | n :: rest =>
    if Text.fold n ∈ seen then some n else repeatedName? (Text.fold n :: seen) rest

def duplicateFieldName? (t : Table) : Option String := repeatedName? [] (t.fields.map (·.name))

def write (t : Table) : String :=
  let fieldLines := t.fields.map fun f => "  " ++ f.write ++ "\n"
  let indexLines := t.indexes.map fun x =>
    "  " ++ (if x.unique then "UNIQUE " else "") ++ "INDEX " ++ x.name ++ " (" ++
      String.intercalate ", " x.columns ++ ")\n"
  "TABLE " ++ t.name ++ "\n" ++ String.join fieldLines ++ String.join indexLines

end Table

end TableAlteration
