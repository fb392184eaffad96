import TableAlteration.Field.Value

namespace TableAlteration

/-- A failure of the database or of the catalog. -/
inductive BackendError where
  | query (sql message : String)
  | other (message : String)
  deriving DecidableEq, Repr

namespace BackendError

def message : BackendError → String
  | query sql message => message ++ " (SQL: " ++ sql ++ ")"
  | other message => message

def sql? : BackendError → Option String
  | query sql _ => some sql
  | other _ => none

end BackendError

/-- Why a value does not suit a property. -/
inductive Refusal where
  | notName
  | notTypeName
  | unknownType (s : String)
  | notText
  | notFlag
  | notCount
  | notInteger
  | noAutoIncrement (t : FieldType)
  | noDecimalPlaces (t : FieldType)
  deriving DecidableEq, Repr

def Refusal.message : Refusal → String
  | notName => "expected a non-empty name"
  | notTypeName => "expected a type name"
  | unknownType s => FieldType.unknownMessage s
  | notText => "expected text"
  | notFlag => "expected a boolean"
  | notCount => "expected a non-negative integer"
  | notInteger => "expected an integer"
  | noAutoIncrement t => "auto increment is not allowed for type " ++ t.name
  | noDecimalPlaces t => "type " ++ t.name ++ " has no decimal places"

inductive AlterError where
  | unknownProperty (property : String)
  | invalidPropertyValue (property : String) (value : Value) (reason : Refusal)
  | tableNotFound (table : String)
  | fieldNotFound (table field : String)
  | duplicateFieldName (table field : String)
  | readOnlyConnection
  | noActiveDatabase
  | nameCollision (table : String) (attempts : UInt32)
  | physicalCreateFailed (table : String) (source : BackendError)
  | dataCopyFailed (table sql : String) (source : BackendError)
  | catalogWriteFailed (table : String) (source : BackendError)
  | swapFailed (temporary table : String) (source : BackendError)
  | backend (source : BackendError)
  deriving DecidableEq, Repr

namespace AlterError

private def inQuotes (s : String) : String := "\"" ++ s ++ "\""

def message : AlterError → String
  | unknownProperty property => "Unknown field property: " ++ property
  | invalidPropertyValue property value reason =>
    "Invalid value " ++ value.write ++ " for field property " ++ inQuotes property ++ ": " ++
      reason.message
  | tableNotFound table => "Table not found: " ++ table
  | fieldNotFound table field =>
    "Field " ++ inQuotes field ++ " not found in table " ++ inQuotes table
  | duplicateFieldName table field =>
    "Duplicate field name " ++ inQuotes field ++ " in table " ++ inQuotes table
  | readOnlyConnection => "Connection is read-only"
  | noActiveDatabase => "No database is in use"
  | nameCollision table attempts =>
    "Could not find a free temporary name for table " ++ inQuotes table ++ " after " ++
      toString attempts.toNat ++ " attempts"
  | physicalCreateFailed table _ => "Could not create table " ++ inQuotes table
  | dataCopyFailed table _ _ => "Could not copy data into table " ++ inQuotes table
  | catalogWriteFailed table _ => "Could not write catalog data for table " ++ inQuotes table
  | swapFailed temporary table _ =>
    "Could not replace table " ++ inQuotes table ++ " with " ++ inQuotes temporary
  | backend source => "Backend error: " ++ source.message

/-- Whether the physical rebuild of the table had begun. -/
def isRebuildFailure : AlterError → Bool
  | physicalCreateFailed .. | dataCopyFailed .. | swapFailed .. => true
  | _ => false

def source? : AlterError → Option BackendError
  | physicalCreateFailed _ source | dataCopyFailed _ _ source | catalogWriteFailed _ source
  | swapFailed _ _ source | backend source => some source
  | _ => none

end AlterError

end TableAlteration
