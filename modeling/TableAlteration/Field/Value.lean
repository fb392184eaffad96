import TableAlteration.Calendar.Written
import TableAlteration.Decimal.Written
import TableAlteration.Field.Kind

namespace TableAlteration

inductive Value where
  | null
  | bool (b : Bool)
  | int (i : Int64)
  | float (x : Binary64)
  | text (s : String)
  | bytes (bs : List UInt8)
  | date (d : Calendar.Date)
  | dateTime (t : Calendar.DateTime)
  | time (t : Calendar.Time)
  deriving DecidableEq, Repr

def int64? (i : Int) : Option Int64 :=
  if -Nat.pow 2 63 ≤ i ∧ i < Nat.pow 2 63 then some (Int64.ofInt i) else none

def int32? (i : Int) : Option Int32 :=
  if -Nat.pow 2 31 ≤ i ∧ i < Nat.pow 2 31 then some (Int32.ofInt i) else none

def uint32? (i : Int) : Option UInt32 :=
  if 0 ≤ i ∧ i < Nat.pow 2 32 then some (UInt32.ofNat i.toNat) else none

namespace Value

def isNull : Value → Bool
  | null => true
  | _ => false

/-- Non-zero integers are true; of texts, the words and digits for the two truth values count. -/
def flag? : Value → Option Bool
  | bool b => some b
  | int i => some (i ≠ 0)
  | text s =>
    let word := Text.fold (Text.trim s)
    if word = "true" ∨ word = "1" then some true
    else if word = "false" ∨ word = "0" then some false
    else none
  | _ => none

def integer? : Value → Option Int64
  | int i => some i
  | bool b => some (if b then 1 else 0)
  | text s => (Text.integer? (Text.trimChars s.toList)).bind int64?
  | _ => none

def text? : Value → Option String
  | text s => some s
  | _ => none

def write : Value → String
  | null => ""
  | bool b => if b then "true" else "false"
  | int i => toString i.toInt
  | float x => Decimal.Format.plain.write x
  | text s => s
  | bytes bs => "<" ++ toString bs.length ++ " bytes>"
  | date d => d.write
  | dateTime t => t.write
  | time t => t.write

def ofInt32 (i : Int32) : Value := int i.toInt64

def ofUInt32 (n : UInt32) : Value := int (Int64.ofInt n.toNat)

def ofFieldType (t : FieldType) : Value := text t.name

end Value

/-- What stands for the present moment in placeholders. -/
structure Clock where
  now : Calendar.DateTime
  deriving DecidableEq, Repr

/-- For a column that forbids null and has neither a source nor a default. -/
def FieldType.emptyValue (clock : Clock) : FieldType → Value
  | byte | shortInteger | integer | bigInteger => .int 0
  | boolean => .bool false
  | float | double => .float Binary64.zero
  | text | longText => .text ""
  | blob => .bytes []
  | date => .date clock.now.date
  | dateTime => .dateTime clock.now
  | time => .time clock.now.time

/-- For a column that permits null but no empty value. -/
def FieldType.notEmptyValue (clock : Clock) : FieldType → Value
  | text | longText => .text " "
  | t => t.emptyValue clock

end TableAlteration
