import TableAlteration.Edit.Action

namespace TableAlteration

/-- The column of the old table that the data of a row come from. -/
structure Origin where
  column : String
  position : Nat
  deriving DecidableEq, Repr

/-- A field, and what is remembered of it so that names may be swapped and used again. -/
structure Row where
  field : Field
  /-- Whose edits the row takes; a row of the old table is unbound until its first edit. -/
  uid : Option Uid := none
  /-- Inserted rows have none. -/
  origin : Option Origin := none
  deriving DecidableEq

/-- A table definition while it is edited. -/
structure Draft where
  name : String
  rows : List Row
  /-- Their columns have the old names until the draft is finished. -/
  indexes : List Index
  /-- The fields whose main catalog rows have changed. -/
  changed : List Uid := []
  moved : Bool := false
  deriving DecidableEq

namespace Draft

def of (t : Table) : Draft where
  name := t.name
  rows := t.fields.zipIdx.map fun (f, i) => { field := f, origin := some ⟨f.name, i⟩ }
  indexes := t.indexes

def fields (d : Draft) : List Field := d.rows.map (·.field)

def table (d : Draft) : Table := ⟨d.name, d.fields, d.indexes⟩

/-- The first row with the property, and its position. -/
def firstRow? (p : Row → Bool) (rows : List Row) : Option (Nat × Row) := do
  let i ← rows.findIdx? p
  let r ← rows[i]?
  return (i, r)

/-- The row bound to `uid`, or else the first unbound row of that name, which is bound by it. -/
def resolve (d : Draft) (uid : Uid) (name : String) : Except AlterError (Nat × Row) :=
  let bound := firstRow? (fun r => r.uid = some uid) d.rows
  let named := firstRow? (fun r => r.uid.isNone && Text.sameName r.field.name name) d.rows
  match bound <|> named with
  | some (i, r) => .ok (i, { r with uid := some uid })
  | none => .error (.fieldNotFound d.name name)

def apply (d : Draft) (p : Planned) : Except AlterError Draft :=
  match p.action with
  | .change uid name property v => do
    let (i, r) ← d.resolve uid name
    let f ← r.field.setNamed property v
    return { d with
      rows := d.rows.set i { r with field := f }
      changed := if p.requirements.main then uid :: d.changed else d.changed }
  | .remove uid name => do
    let (i, _) ← d.resolve uid name
    return { d with rows := d.rows.eraseIdx i }
  | .insert uid index f =>
    .ok { d with
      rows := d.rows.insertIdx (min index d.rows.length) { field := f, uid := some uid } }
  | .move uid name index => do
    let (i, r) ← d.resolve uid name
    return { d with
      rows := moveWithin (d.rows.set i r) i index
      changed := uid :: d.changed
      moved := true }

def applyAll (d : Draft) (l : List Planned) : Except AlterError Draft := l.foldlM apply d

/-- The final name of the field that has its data from the column. -/
def finalName? (d : Draft) (column : String) : Option String :=
  (d.rows.find? fun r => r.origin.any fun o => Text.sameName o.column column).map (·.field.name)

/-- Indexes without columns are dropped. -/
def finalIndexes (d : Draft) : List Index :=
  (d.indexes.map fun x => { x with columns := x.columns.filterMap d.finalName? }).filter
    fun x => !x.columns.isEmpty

/-- Carries the final names over to the indexes; no two fields may have the same name. -/
def finish (d : Draft) : Except AlterError Draft :=
  let final := { d with indexes := d.finalIndexes }
  match final.table.duplicateFieldName? with
  | some f => .error (.duplicateFieldName d.name f)
  | none => .ok final

/-- A row whose catalog entry has to be written: its main data has changed, or rows were moved and
it does not stand where it stood. -/
def isStale (d : Draft) (position : Nat) (r : Row) : Bool :=
  r.uid.any (· ∈ d.changed) || d.moved && r.origin.map (·.position) ≠ some position

end Draft

end TableAlteration
