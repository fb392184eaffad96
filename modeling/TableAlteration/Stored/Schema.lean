import TableAlteration.Calendar.Reader
import TableAlteration.Stored.Basic
import TableAlteration.Table.Basic

namespace TableAlteration

open Stored

def FieldType.toJson (t : FieldType) : Json := .str t.tag

def FieldType.ofJson? (j : Json) : Option FieldType := do
  let s ← name? j
  FieldType.all.find? fun t => t.tag = s

namespace Value

def byte? (j : Json) : Option UInt8 := do
  let i ← Stored.integer? j
  if 0 ≤ i ∧ i < 256 then some i.toNat.toUInt8 else none

/-- Moments have a `T` between date and time. -/
def toJson : Value → Json
  | null => .str "Null"
  | bool b => .obj [("Bool", .bool b)]
  | int i => .obj [("Int", .int i.toInt)]
  | float x => .obj [("Float", .float x)]
  | text s => .obj [("Text", .str s)]
  | bytes bs => .obj [("Bytes", .arr (bs.map fun b => .int b.toNat))]
  | date d => .obj [("Date", .str d.write)]
  | dateTime t => .obj [("DateTime", .str (t.date.write ++ "T" ++ t.time.write))]
  | time t => .obj [("Time", .str t.write)]

def ofJson? (j : Json) : Option Value := do
  match ← choice? j with
  | ("Null", none) | ("Null", some .null) => return null
  | ("Bool", some j) => return bool (← Stored.flag? j)
  | ("Int", some j) => return int (← int64? (← Stored.integer? j))
  | ("Float", some j) => return float (← number? j)
  | ("Text", some j) => return text (← Stored.text? j)
  | ("Bytes", some j) => return bytes (← list? byte? j)
  | ("Date", some j) => return date (← Calendar.Date.read? (← Stored.text? j))
  | ("DateTime", some j) => return dateTime (← Calendar.DateTime.read? (← Stored.text? j))
  | ("Time", some j) => return time (← Calendar.Time.read? (← Stored.text? j))
  | _ => none

end Value

namespace Constraints

def toJson (c : Constraints) : Json :=
  .obj [("primary_key", .bool c.primaryKey), ("unique", .bool c.unique),
    ("not_null", .bool c.notNull), ("not_empty", .bool c.notEmpty),
    ("auto_increment", .bool c.autoIncrement), ("indexed", .bool c.indexed)]

def ofJson? (j : Json) : Option Constraints := do
  let ms ← members?
    ["primary_key", "unique", "not_null", "not_empty", "auto_increment", "indexed"] j
  return {
    primaryKey := ← member? ms "primary_key" flag?
    unique := ← member? ms "unique" flag?
    notNull := ← member? ms "not_null" flag?
    notEmpty := ← member? ms "not_empty" flag?
    autoIncrement := ← member? ms "auto_increment" flag?
    indexed := ← member? ms "indexed" flag? }

end Constraints

namespace Field

private def count? (j : Json) : Option UInt32 := do uint32? (← integer? j)

private def places? (j : Json) : Option Int32 := do int32? (← integer? j)

private def values? : Json → Option (Dict String Value)
  | .obj ms => do
    let entries ← ms.mapM fun (k, j) => (Value.ofJson? j).map fun v => (k, v)
    return .ofList entries
  | _ => none

def toJson (f : Field) : Json :=
  let count (o : Option UInt32) : Json := Json.ofOption (fun n => .int n.toNat) o
  .obj [("name", .str f.name), ("field_type", f.type.toJson),
    ("caption", Json.ofOption .str f.caption), ("description", Json.ofOption .str f.description),
    ("max_length", count f.maxLength), ("precision", count f.precision),
    ("unsigned", .bool f.unsigned), ("constraints", f.constraints.toJson),
    ("default_value", Json.ofOption Value.toJson f.default),
    ("default_width", count f.defaultWidth),
    ("visible_decimal_places", Json.ofOption (fun n => .int n.toInt) f.decimalPlaces),
    ("extended", .obj (f.extended.entries.map fun (k, v) => (k, v.toJson)))]

def ofJson? (j : Json) : Option Field := do
  let ms ← members?
    ["name", "field_type", "caption", "description", "max_length", "precision", "unsigned",
      "constraints", "default_value", "default_width", "visible_decimal_places", "extended"] j
  return {
    name := ← member? ms "name" text?
    type := ← member? ms "field_type" FieldType.ofJson?
    caption := ← optionalMember? ms "caption" text?
    description := ← optionalMember? ms "description" text?
    maxLength := ← optionalMember? ms "max_length" count?
    precision := ← optionalMember? ms "precision" count?
    unsigned := ← member? ms "unsigned" flag?
    constraints := ← member? ms "constraints" Constraints.ofJson?
    default := ← optionalMember? ms "default_value" Value.ofJson?
    defaultWidth := ← optionalMember? ms "default_width" count?
    decimalPlaces := ← optionalMember? ms "visible_decimal_places" places?
    extended := ← member? ms "extended" values? }

end Field

namespace Index

def toJson (x : Index) : Json :=
  .obj [("name", .str x.name), ("columns", .arr (x.columns.map .str)), ("unique", .bool x.unique)]

def ofJson? (j : Json) : Option Index := do
  let ms ← members? ["name", "columns", "unique"] j
  return ⟨← member? ms "name" text?, ← member? ms "columns" (list? text?),
    ← member? ms "unique" flag?⟩

end Index

namespace Table

def toJson (t : Table) : Json :=
  .obj [("name", .str t.name), ("fields", .arr (t.fields.map Field.toJson)),
    ("indexes", .arr (t.indexes.map Index.toJson))]

def ofJson? (j : Json) : Option Table := do
  let ms ← members? ["name", "fields", "indexes"] j
  return ⟨← member? ms "name" text?, ← member? ms "fields" (list? Field.ofJson?),
    ← member? ms "indexes" (list? Index.ofJson?)⟩

end Table

end TableAlteration
