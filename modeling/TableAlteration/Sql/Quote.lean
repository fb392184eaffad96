import TableAlteration.Text.Digits

namespace TableAlteration.Sql

inductive Dialect where
  | sqlite | postgres | mysql
  deriving DecidableEq, Repr

namespace Dialect

def name : Dialect → String
  | sqlite => "sqlite"
  | postgres => "postgres"
  | mysql => "mysql"

def all : List Dialect := [sqlite, postgres, mysql]

def ofName? (s : String) : Option Dialect := all.find? fun d => d.name = s

/-- The quote around identifiers; MySQL has the grave accent. -/
def identifierQuote : Dialect → Char
  | mysql => '\x60'
  | sqlite | postgres => '"'

end Dialect

/-- Each `c` in the text is written twice. -/
def doubled (c : Char) : List Char → List Char
  | [] => []
  | d :: rest => if d = c then c :: c :: doubled c rest else d :: doubled c rest

def enclosed (q : Char) (s : List Char) : List Char := q :: s ++ [q]

/-- A quoted name. -/
def identifier (d : Dialect) (name : String) : String :=
  let q := d.identifierQuote
  String.ofList (enclosed q (doubled q name.toList))

/-- A quoted text. -/
def textLiteral (d : Dialect) (s : String) : String :=
  let inner := doubled '\'' s.toList
  String.ofList (enclosed '\'' (match d with
    | .mysql => doubled '\\' inner
    | .sqlite | .postgres => inner))

def flagLiteral (d : Dialect) (b : Bool) : String :=
  match d with
  | .postgres => if b then "TRUE" else "FALSE"
  | .sqlite | .mysql => if b then "1" else "0"

def bytesLiteral (d : Dialect) (bs : List UInt8) : String :=
  let hex := String.ofList (Text.upperHexBytes bs)
  match d with
  | .postgres => "'\\x" ++ hex ++ "'::bytea"
  | .sqlite | .mysql => "X'" ++ hex ++ "'"

end TableAlteration.Sql
