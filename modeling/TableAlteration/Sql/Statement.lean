import TableAlteration.CopyPlan
import TableAlteration.Sql.Column
import TableAlteration.Sql.Literal

namespace TableAlteration.Sql

def commaSeparated (l : List String) : String := String.intercalate ", " l

def columns (t : Table) : List Column := t.fields.map (.of (t.primaryKey.length ≤ 1))

/-- A key of more than one column is declared at the end. -/
def keyClause (d : Dialect) (t : Table) : List String :=
  if t.primaryKey.length ≤ 1 then []
  else ["PRIMARY KEY (" ++ commaSeparated (t.primaryKey.map (identifier d)) ++ ")"]

/-- `none` if the dialect cannot number one of the columns. -/
def createTable? (d : Dialect) (t : Table) : Option String :=
  ((columns t).mapM (Column.write? d)).map fun cs =>
    "CREATE TABLE " ++ identifier d t.name ++
      match cs ++ keyClause d t with
      | [] => ""
      | parts => " ( " ++ commaSeparated parts ++ " )"

/-- The name of the index is enclosed in quotes as it is. -/
def createIndex (d : Dialect) (t : Table) (x : Index) : String :=
  "CREATE " ++ (if x.unique then "UNIQUE " else "") ++ "INDEX " ++
    String.ofList (enclosed d.identifierQuote x.name.toList) ++ " ON " ++ identifier d t.name ++
    " (" ++ commaSeparated (x.columns.map (identifier d)) ++ ")"

def createIndexes (d : Dialect) (t : Table) : List String :=
  t.effectiveIndexes.map (createIndex d t)

def sourceExpression (d : Dialect) (c : CopyColumn) : String :=
  match c.source with
  | .column name => identifier d name
  | .default v | .empty v | .notEmpty v => valueLiteral d c.type v

def insertSelect (d : Dialect) (p : CopyPlan) : String :=
  "INSERT INTO " ++ identifier d p.destination ++ " (" ++
    commaSeparated (p.columns.map fun c => identifier d c.destination) ++ ") SELECT " ++
    commaSeparated (p.columns.map (sourceExpression d)) ++ " FROM " ++ identifier d p.source

end TableAlteration.Sql
