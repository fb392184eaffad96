import TableAlteration.Dict
import TableAlteration.Field.Value

namespace TableAlteration

structure Constraints where
  primaryKey : Bool := false
  unique : Bool := false
  notNull : Bool := false
  /-- Empty values are rejected; null may still be allowed. -/
  notEmpty : Bool := false
  autoIncrement : Bool := false
  indexed : Bool := false
  deriving DecidableEq, Repr

structure Field where
  name : String
  type : FieldType
  caption : Option String := none
  description : Option String := none
  maxLength : Option UInt32 := none
  precision : Option UInt32 := none
  unsigned : Bool := false
  constraints : Constraints := {}
  default : Option Value := none
  defaultWidth : Option UInt32 := none
  decimalPlaces : Option Int32 := none
  /-- Look-up properties, by their folded names. -/
  extended : Dict String Value := ∅
  deriving DecidableEq

namespace Field

/-- A primary key cannot be null. -/
def withPrimaryKey (f : Field) : Field :=
  { f with constraints := { f.constraints with primaryKey := true, notNull := true } }

def withAutoIncrement (f : Field) : Field :=
  { f with constraints := { f.constraints with autoIncrement := true } }

def withNotNull (f : Field) : Field :=
  { f with constraints := { f.constraints with notNull := true } }

def withNotEmpty (f : Field) : Field :=
  { f with constraints := { f.constraints with notEmpty := true } }

def withUnique (f : Field) : Field :=
  { f with constraints := { f.constraints with unique := true } }

def withIndexed (f : Field) : Field :=
  { f with constraints := { f.constraints with indexed := true } }

def withUnsigned (f : Field) : Field := { f with unsigned := true }

def withCaption (f : Field) (s : String) : Field := { f with caption := some s }

def withDescription (f : Field) (s : String) : Field := { f with description := some s }

def withMaxLength (f : Field) (n : UInt32) : Field := { f with maxLength := some n }

def withPrecision (f : Field) (n : UInt32) : Field := { f with precision := some n }

/-- Null as a default is no default. -/
def withDefault (f : Field) (v : Value) : Field :=
  { f with default := if v.isNull then none else some v }

def write (f : Field) : String :=
  let c := f.constraints
  f.name ++ " " ++ f.type.name ++
    (f.maxLength.elim "" fun n => "(" ++ toString n.toNat ++ ")") ++
    (if f.unsigned then " UNSIGNED" else "") ++
    (if c.primaryKey then " PRIMARY KEY" else "") ++
    (if c.autoIncrement then " AUTOINCREMENT" else "") ++
    (if c.unique then " UNIQUE" else "") ++
    (if c.notNull then " NOTNULL" else "") ++
    (if c.notEmpty then " NOTEMPTY" else "") ++
    (if c.indexed then " INDEXED" else "") ++
    (f.default.elim "" fun v => " DEFAULT=" ++ v.write)

end Field

end TableAlteration
