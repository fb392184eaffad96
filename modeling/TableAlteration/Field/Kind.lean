import TableAlteration.Text.Blank
import TableAlteration.Text.Fold

namespace TableAlteration

inductive FieldType where
  | byte | shortInteger | integer | bigInteger | boolean | date | dateTime | time
  | float | double | text | longText | blob
  deriving DecidableEq, Repr

namespace FieldType

def all : List FieldType :=
  [byte, shortInteger, integer, bigInteger, boolean, date, dateTime, time, float, double, text,
    longText, blob]

def name : FieldType → String
  | byte => "Byte"
  | shortInteger => "ShortInteger"
  | integer => "Integer"
  | bigInteger => "BigInteger"
  | boolean => "Boolean"
  | date => "Date"
  | dateTime => "DateTime"
  | time => "Time"
  | float => "Float"
  | double => "Double"
  | text => "Text"
  | longText => "LongText"
  | blob => "BLOB"

/-- The spelling in stored definitions. -/
def tag : FieldType → String
  | blob => "Blob"
  | t => t.name

def isInteger : FieldType → Bool
  | byte | shortInteger | integer | bigInteger => true
  | _ => false

def isFloating : FieldType → Bool
  | float | double => true
  | _ => false

def isText : FieldType → Bool
  | text | longText => true
  | _ => false

/-- Only integers can be numbered by the database. -/
def allowsAutoIncrement (t : FieldType) : Bool := t.isInteger

def hasDecimalPlaces (t : FieldType) : Bool := t.isFloating

def ofName? (s : String) : Option FieldType :=
  all.find? fun t => Text.sameName t.name (Text.trim s)

def unknownMessage (s : String) : String := "unknown field type '" ++ Text.trim s ++ "'"

end FieldType

end TableAlteration
