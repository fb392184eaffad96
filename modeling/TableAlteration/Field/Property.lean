import TableAlteration.Error
import TableAlteration.Field.Basic

namespace TableAlteration

/-- How a field is looked up in another source; kept apart from the main definition. -/
inductive LookupProperty where
  | rowSource | rowSourceType | rowSourceValues | boundColumn | visibleColumn | columnWidths
  | showColumnHeaders | listRows | limitToList | displayWidget
  deriving DecidableEq, Repr

namespace LookupProperty

def all : List LookupProperty :=
  [rowSource, rowSourceType, rowSourceValues, boundColumn, visibleColumn, columnWidths,
    showColumnHeaders, listRows, limitToList, displayWidget]

theorem mem_all (l : LookupProperty) : l ∈ all := by cases l <;> decide

def name : LookupProperty → String
  | rowSource => "rowSource"
  | rowSourceType => "rowSourceType"
  | rowSourceValues => "rowSourceValues"
  | boundColumn => "boundColumn"
  | visibleColumn => "visibleColumn"
  | columnWidths => "columnWidths"
  | showColumnHeaders => "showColumnHeaders"
  | listRows => "listRows"
  | limitToList => "limitToList"
  | displayWidget => "displayWidget"

/-- The key of the property's value in `Field.extended`. -/
def key (l : LookupProperty) : String := Text.fold l.name

def ofName? (s : String) : Option LookupProperty := all.find? fun l => Text.sameName l.name s

end LookupProperty

inductive Property where
  | name | type | caption | description | unsigned | maxLength | precision | defaultValue
  | defaultWidth | primaryKey | unique | notNull | allowEmpty | autoIncrement | indexed
  | visibleDecimalPlaces
  | lookup (l : LookupProperty)
  deriving DecidableEq, Repr

namespace Property

def all : List Property :=
  [name, type, caption, description, unsigned, maxLength, precision, defaultValue, defaultWidth,
    primaryKey, unique, notNull, allowEmpty, autoIncrement, indexed, visibleDecimalPlaces] ++
  LookupProperty.all.map lookup

theorem mem_all (p : Property) : p ∈ all := by
  cases p with
  | lookup l => exact List.mem_append_right _ (List.mem_map_of_mem (LookupProperty.mem_all l))
  | _ => decide

def written : Property → String
  | name => "name"
  | type => "type"
  | caption => "caption"
  | description => "description"
  | unsigned => "unsigned"
  | maxLength => "maxLength"
  | precision => "precision"
  | defaultValue => "defaultValue"
  | defaultWidth => "defaultWidth"
  | primaryKey => "primaryKey"
  | unique => "unique"
  | notNull => "notNull"
  | allowEmpty => "allowEmpty"
  | autoIncrement => "autoIncrement"
  | indexed => "indexed"
  | visibleDecimalPlaces => "visibleDecimalPlaces"
  | lookup l => l.name

def ofName? (s : String) : Option Property := all.find? fun p => Text.sameName p.written s

/-- The property whose folded name is given. -/
def ofKey? : String → Option Property
  | "name" => some name
  | "type" => some type
  | "caption" => some caption
  | "description" => some description
  | "unsigned" => some unsigned
  | "maxlength" => some maxLength
  | "precision" => some precision
  | "defaultvalue" => some defaultValue
  | "defaultwidth" => some defaultWidth
  | "primarykey" => some primaryKey
  | "unique" => some unique
  | "notnull" => some notNull
  | "allowempty" => some allowEmpty
  | "autoincrement" => some autoIncrement
  | "indexed" => some indexed
  | "visibledecimalplaces" => some visibleDecimalPlaces
  | key => (LookupProperty.ofName? key).map lookup

end Property

def Value.asFlag (v : Value) : Except Refusal Bool :=
  match v.flag? with
  | some b => .ok b
  | none => .error .notFlag

def Value.asOptionalText : Value → Except Refusal (Option String)
  | .null => .ok none
  | .text s => .ok (some s)
  | _ => .error .notText

def Value.asOptionalCount (v : Value) : Except Refusal (Option UInt32) :=
  if v.isNull then .ok none
  else match v.integer?.bind fun i => uint32? i.toInt with
    | some n => .ok (some n)
    | none => .error .notCount

def Value.asOptionalPlaces (v : Value) : Except Refusal (Option Int32) :=
  if v.isNull then .ok none
  else match v.integer?.bind fun i => int32? i.toInt with
    | some n => .ok (some n)
    | none => .error .notInteger

/-- A name, freed from surrounding blanks. -/
def Value.asName (v : Value) : Except Refusal String :=
  match (v.text?.map Text.trim).filter (· ≠ "") with
  | some s => .ok s
  | none => .error .notName

def Value.asType : Value → Except Refusal FieldType
  | .text s =>
    match FieldType.ofName? s with
    | some t => .ok t
    | none => .error (.unknownType s)
  | _ => .error .notTypeName

namespace Field

/-- What the new type does not support is given up. -/
def withType (f : Field) (t : FieldType) : Field :=
  { f with
    type := t
    constraints :=
      { f.constraints with autoIncrement := f.constraints.autoIncrement && t.allowsAutoIncrement }
    decimalPlaces := if t.hasDecimalPlaces then f.decimalPlaces else none }

/-- What becomes of the field. -/
def set (f : Field) (v : Value) : Property → Except Refusal Field
  | .name => do return { f with name := ← v.asName }
  | .type => do return f.withType (← v.asType)
  | .caption => do return { f with caption := ← v.asOptionalText }
  | .description => do return { f with description := ← v.asOptionalText }
  | .unsigned => do return { f with unsigned := ← v.asFlag }
  | .maxLength => do return { f with maxLength := ← v.asOptionalCount }
  | .precision => do return { f with precision := ← v.asOptionalCount }
  | .defaultValue => .ok (f.withDefault v)
  | .defaultWidth => do return { f with defaultWidth := ← v.asOptionalCount }
  | .primaryKey => do
    let on ← v.asFlag
    let c := f.constraints
    return { f with constraints := { c with primaryKey := on, notNull := on || c.notNull } }
  | .unique => do
    return { f with constraints := { f.constraints with unique := ← v.asFlag } }
  | .notNull => do
    return { f with constraints := { f.constraints with notNull := ← v.asFlag } }
  | .allowEmpty => do
    return { f with constraints := { f.constraints with notEmpty := !(← v.asFlag) } }
  | .autoIncrement => do
    let on ← v.asFlag
    if on && !f.type.allowsAutoIncrement then .error (.noAutoIncrement f.type)
    else return { f with constraints := { f.constraints with autoIncrement := on } }
  | .indexed => do
    return { f with constraints := { f.constraints with indexed := ← v.asFlag } }
  | .visibleDecimalPlaces =>
    if f.type.hasDecimalPlaces then do return { f with decimalPlaces := ← v.asOptionalPlaces }
    else .error (.noDecimalPlaces f.type)
  | .lookup l =>
    .ok { f with
      extended := if v.isNull then f.extended.erase l.key else f.extended.insert l.key v }

/-- A change of a field where it stands. One that is refused midway leaves what it has changed by
then. -/
abbrev Update := EStateM Refusal Field Unit

/-- The steps by which a property is set. -/
def update (v : Value) : Property → Update
  | .name => do
    let s ← liftExcept v.asName
    modify ({ · with name := s })
  | .type => do
    let t ← liftExcept v.asType
    modify ({ · with type := t })
    if !t.allowsAutoIncrement then modify ({ · with constraints.autoIncrement := false })
    if !t.hasDecimalPlaces then modify ({ · with decimalPlaces := none })
  | .caption => do
    let s ← liftExcept v.asOptionalText
    modify ({ · with caption := s })
  | .description => do
    let s ← liftExcept v.asOptionalText
    modify ({ · with description := s })
  | .unsigned => do
    let on ← liftExcept v.asFlag
    modify ({ · with unsigned := on })
  | .maxLength => do
    let n ← liftExcept v.asOptionalCount
    modify ({ · with maxLength := n })
  | .precision => do
    let n ← liftExcept v.asOptionalCount
    modify ({ · with precision := n })
  | .defaultValue => modify (·.withDefault v)
  | .defaultWidth => do
    let n ← liftExcept v.asOptionalCount
    modify ({ · with defaultWidth := n })
  | .primaryKey => do
    let on ← liftExcept v.asFlag
    modify ({ · with constraints.primaryKey := on })
    if on then modify ({ · with constraints.notNull := true })
  | .unique => do
    let on ← liftExcept v.asFlag
    modify ({ · with constraints.unique := on })
  | .notNull => do
    let on ← liftExcept v.asFlag
    modify ({ · with constraints.notNull := on })
  | .allowEmpty => do
    let on ← liftExcept v.asFlag
    modify ({ · with constraints.notEmpty := !on })
  | .autoIncrement => do
    let on ← liftExcept v.asFlag
    let t := (← get).type
    if on && !t.allowsAutoIncrement then throw (.noAutoIncrement t)
    modify ({ · with constraints.autoIncrement := on })
  | .indexed => do
    let on ← liftExcept v.asFlag
    modify ({ · with constraints.indexed := on })
  | .visibleDecimalPlaces => do
    let t := (← get).type
    if !t.hasDecimalPlaces then throw (.noDecimalPlaces t)
    let n ← liftExcept v.asOptionalPlaces
    modify ({ · with decimalPlaces := n })
  | .lookup l =>
    if v.isNull then modify fun f => { f with extended := f.extended.erase l.key }
    else modify fun f => { f with extended := f.extended.insert l.key v }

/-- Errors name the property as it was spelled by the caller. -/
def updateNamed (property : String) (v : Value) : EStateM AlterError Field Unit :=
  match Property.ofKey? (Text.fold property) with
  | some p => (update v p).adaptExcept (.invalidPropertyValue property v)
  | none => throw (.unknownProperty property)

def setNamed (f : Field) (property : String) (v : Value) : Except AlterError Field :=
  match (updateNamed property v).run f with
  | .ok () g => .ok g
  | .error e _ => .error e

end Field

end TableAlteration
