import TableAlteration.Field.Value
import TableAlteration.Sql.Quote

namespace TableAlteration.Sql

def mysqlEscape (c : Char) : List Char :=
  if c = '\\' ∨ c = '"' ∨ c = '\'' then ['\\', c]
  else if c = '\x00' then ['\\', '0']
  else if c = '\x08' then ['\\', 'b']
  else if c = '\t' then ['\\', 't']
  else if c = '\x1a' then ['\\', 'z']
  else if c = '\n' then ['\\', 'n']
  else if c = '\r' then ['\\', 'r']
  else [c]

def isControl (c : Char) : Bool := c.toNat < 32 || c.toNat = 127

def postgresEscape (c : Char) : List Char :=
  if c = '\\' ∨ c = '\'' then ['\\', c]
  else if c = '\x00' then ['\\', '0']
  else if c = '\x08' then ['\\', 'b']
  else if c = '\x0c' then ['\\', 'f']
  else if c = '\n' then ['\\', 'n']
  else if c = '\r' then ['\\', 'r']
  else if c = '\t' then ['\\', 't']
  else if isControl c then '\\' :: Text.octal3 c.toNat
  else [c]

/-- A text that needs escapes is an escape string in PostgreSQL. -/
def defaultText (d : Dialect) (s : String) : String :=
  let cs := s.toList
  match d with
  | .sqlite => String.ofList (enclosed '\'' (doubled '\'' cs))
  | .mysql => String.ofList (enclosed '\'' (cs.flatMap mysqlEscape))
  | .postgres =>
    if cs.any fun c => c = '\\' || c = '\'' || isControl c then
      String.ofList ('E' :: enclosed '\'' (cs.flatMap postgresEscape))
    else String.ofList (enclosed '\'' cs)

def inQuotes (s : String) : String := "'" ++ s ++ "'"

def defaultBytes (d : Dialect) (bs : List UInt8) : String :=
  let hex := String.ofList (Text.upperHexBytes bs)
  match d with
  | .postgres => "'\\x" ++ hex ++ "'"
  | .sqlite | .mysql => "x'" ++ hex ++ "'"

/-- Null as a default needs no clause. -/
def defaultValue? (d : Dialect) : Value → Option String
  | .null => none
  | .bool b => some (if b then "TRUE" else "FALSE")
  | .int i => some (toString i.toInt)
  | .float x => some (Decimal.Format.plain.write x)
  | .text s => some (defaultText d s)
  | .bytes bs => some (defaultBytes d bs)
  | .date t => some (inQuotes t.write)
  | .dateTime t => some (inQuotes t.writeMicroseconds)
  | .time t => some (inQuotes t.writeMicroseconds)

end TableAlteration.Sql
