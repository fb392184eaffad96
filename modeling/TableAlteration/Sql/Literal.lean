import TableAlteration.Field.Value
import TableAlteration.Sql.Quote

namespace TableAlteration.Sql

/-- Numbers that are not finite have no literal and become null. -/
def literal (d : Dialect) : Value → String
  | .null => "NULL"
  | .bool b => flagLiteral d b
  | .int i => toString i.toInt
  | .float x => if x.isFinite then Decimal.Format.literal.write x else "NULL"
  | .text s => textLiteral d s
  | .bytes bs => bytesLiteral d bs
  | .date t => textLiteral d t.write
  | .dateTime t => textLiteral d t.writeSeconds
  | .time t => textLiteral d t.writeSeconds

/-- A value in a column of the type. What cannot be taken as a flag or an integer there keeps its
own kind; into a text column everything goes as text. -/
def valueLiteral (d : Dialect) (t : FieldType) (v : Value) : String :=
  if v.isNull then "NULL"
  else if t = .boolean then
    match v.flag? with
    | some b => flagLiteral d b
    | none => literal d v
  else if t.isInteger then
    match v.integer? with
    | some i => toString i.toInt
    | none => literal d v
  else if t.isText then textLiteral d v.write
  else literal d v

end TableAlteration.Sql
