import TableAlteration.Edit.Draft

namespace TableAlteration

inductive CopySource where
  | column (name : String)
  | default (v : Value)
  /-- For columns that forbid null. -/
  | empty (v : Value)
  /-- For columns that permit null but no empty value. -/
  | notEmpty (v : Value)
  deriving DecidableEq, Repr

structure CopyColumn where
  destination : String
  type : FieldType
  source : CopySource
  deriving DecidableEq, Repr

structure CopyPlan where
  source : String
  destination : String
  columns : List CopyColumn
  deriving DecidableEq, Repr

namespace CopyPlan

/-- Where a field's values come from; `none` leaves them to the database. Numbers that it assigns
itself must not be given, because placeholders would repeat. -/
def source? (clock : Clock) (f : Field) (column : Option String) : Option CopySource :=
  match column with
  | some c => some (.column c)
  | none =>
    if f.constraints.autoIncrement then none
    else match f.default with
      | some v => some (.default v)
      | none =>
        if f.constraints.notNull then some (.empty (f.type.emptyValue clock))
        else if f.constraints.notEmpty then some (.notEmpty (f.type.notEmptyValue clock))
        else none

def column? (clock : Clock) (f : Field) (column : Option String) : Option CopyColumn :=
  (source? clock f column).map fun s => ⟨f.name, f.type, s⟩

/-- Each field of the new table comes with the column of the old one that it continues, if any. -/
def build (clock : Clock) (source destination : String) (fields : List (Field × Option String)) :
    CopyPlan :=
  ⟨source, destination, fields.filterMap fun (f, c) => column? clock f c⟩

def isEmpty (p : CopyPlan) : Bool := p.columns.isEmpty

end CopyPlan

def Draft.copyPlan (d : Draft) (clock : Clock) (source destination : String) : CopyPlan :=
  .build clock source destination (d.rows.map fun r => (r.field, r.origin.map (·.column)))

end TableAlteration
