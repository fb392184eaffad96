import TableAlteration.Field.Basic
import TableAlteration.Sql.Default

namespace TableAlteration.Sql

inductive IntegerSize where
  | tiny | small | medium | big
  deriving DecidableEq, Repr

inductive ColumnType where
  | integer (size : IntegerSize) (unsigned : Bool)
  | boolean | date | dateTime | time | float | double
  | decimal (precision scale : Nat)
  | varchar (length : Option UInt32)
  | text | blob
  deriving DecidableEq, Repr

/-- A precision makes a floating-point field decimal, with its visible places as the scale. -/
def ColumnType.of (f : Field) : ColumnType :=
  match f.type with
  | .byte => integer .tiny f.unsigned
  | .shortInteger => integer .small f.unsigned
  | .integer => integer .medium f.unsigned
  | .bigInteger => integer .big f.unsigned
  | .boolean => boolean
  | .date => date
  | .dateTime => dateTime
  | .time => time
  | .float | .double =>
    match f.precision with
    | some p => decimal p.toNat ((f.decimalPlaces.map (·.toInt.toNat)).getD 0)
    | none => if f.type = .float then float else double
  | .text => varchar f.maxLength
  | .longText => text
  | .blob => blob

private def measured (name : String) (precision scale : Nat) : String :=
  name ++ "(" ++ toString precision ++ ", " ++ toString scale ++ ")"

private def sized (name : String) (length : UInt32) : String :=
  name ++ "(" ++ toString length.toNat ++ ")"

def ColumnType.sqlite : ColumnType → String
  | integer .tiny _ => "tinyint"
  | integer .small _ => "smallint"
  | integer .medium _ | integer .big _ => "integer"
  | boolean => "boolean"
  | date => "date_text"
  | dateTime => "datetime_text"
  | time => "time_text"
  | float => "float"
  | double => "double"
  | decimal p s => measured "real" p s
  | varchar none => "varchar"
  | varchar (some n) => sized "varchar" n
  | text => "text"
  | blob => "blob"

/-- There are no unsigned integers; the next larger type takes their place. -/
def ColumnType.postgres : ColumnType → String
  | integer .tiny _ | integer .small false => "smallint"
  | integer .small true | integer .medium false => "integer"
  | integer .medium true | integer .big _ => "bigint"
  | boolean => "bool"
  | date => "date"
  | dateTime => "timestamp without time zone"
  | time => "time"
  | float => "real"
  | double => "double precision"
  | decimal p s => measured "decimal" p s
  | varchar none => "varchar"
  | varchar (some n) => sized "varchar" n
  | text => "text"
  | blob => "bytea"

private def integerName : IntegerSize → String
  | .tiny => "tinyint"
  | .small => "smallint"
  | .medium => "int"
  | .big => "bigint"

def ColumnType.mysql : ColumnType → String
  | integer size unsigned => integerName size ++ if unsigned then " UNSIGNED" else ""
  | boolean => "bool"
  | date => "date"
  | dateTime => "datetime"
  | time => "time"
  | float => "float"
  | double => "double"
  | decimal p s => measured "decimal" p s
  | varchar none => "varchar(255)"
  | varchar (some n) => sized "varchar" n
  | text => "text"
  | blob => "blob"

def ColumnType.write : Dialect → ColumnType → String
  | .sqlite => sqlite
  | .postgres => postgres
  | .mysql => mysql

structure Column where
  name : String
  type : ColumnType
  notNull : Bool
  default : Option Value
  primaryKey : Bool
  autoIncrement : Bool
  unique : Bool
  deriving DecidableEq

/-- A key of several columns is declared behind all of them, not in the column. -/
def Column.of (inlineKey : Bool) (f : Field) : Column where
  name := f.name
  type := .of f
  notNull := f.constraints.notNull
  default := f.default.filter fun v => !v.isNull
  primaryKey := f.constraints.primaryKey && inlineKey
  autoIncrement := f.constraints.autoIncrement
  unique := f.constraints.unique && !f.constraints.primaryKey

/-- The type of a column that the database numbers, where only some integers can be numbered. -/
def identityType? : ColumnType → Option String
  | .integer .small false => some "smallint GENERATED BY DEFAULT AS IDENTITY"
  | .integer .medium false => some "integer GENERATED BY DEFAULT AS IDENTITY"
  | .integer .big false => some "bigint GENERATED BY DEFAULT AS IDENTITY"
  | _ => none

def Column.type? (d : Dialect) (c : Column) : Option String :=
  if d = .postgres ∧ c.autoIncrement then identityType? c.type else some (c.type.write d)

def autoIncrementWord : Dialect → String
  | .sqlite => " AUTOINCREMENT"
  | .postgres => ""
  | .mysql => " AUTO_INCREMENT"

/-- `none` if the dialect cannot number the column. -/
def Column.write? (d : Dialect) (c : Column) : Option String :=
  (c.type? d).map fun type =>
    identifier d c.name ++ " " ++ type ++
      (if c.notNull then " NOT NULL" else "") ++
      ((c.default.bind (defaultValue? d)).elim "" fun v => " DEFAULT " ++ v) ++
      (if c.primaryKey then " PRIMARY KEY" else "") ++
      (if c.autoIncrement then autoIncrementWord d else "") ++
      (if c.unique then " UNIQUE" else "")

end TableAlteration.Sql
