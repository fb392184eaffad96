namespace TableAlteration

inductive TableKind where
  /-- Named on the way to another table by a header. -/
  | implied
  /-- Named on the way to a value by a key with dots. -/
  | dotted
  /-- Opened by a header of its own. -/
  | defined
  /-- Written in braces; nothing can be added. -/
  | inline
  deriving DecidableEq, Repr

inductive Toml where
  | string (s : String)
  | integer (i : Int)
  | boolean (b : Bool)
  | float
  | moment
  | array (items : List Toml)
  /-- The elements of an array of tables. -/
  | tables (elements : List (List (String × Toml)))
  | table (kind : TableKind) (entries : List (String × Toml))
  deriving Repr

namespace Toml

abbrev Entries := List (String × Toml)

def find? (k : String) (es : Entries) : Option Toml := (es.find? fun e => e.1 = k).map (·.2)

def replace (k : String) (v : Toml) (es : Entries) : Entries :=
  es.map fun e => if e.1 = k then (k, v) else e

/-- Edits the table at the end of a path, making the tables on the way that are missing. Of an
array of tables the last one is meant. A key with dots cannot reach into a table that has a
header of its own. -/
def edit (dots : Bool) (leaf : TableKind → Entries → Option Entries) :
    List String → TableKind → Entries → Option Entries
  | [], kind, es => leaf kind es
  | k :: path, _, es =>
    match find? k es with
    | none => do
      let kind : TableKind := if dots then .dotted else .implied
      let sub ← edit dots leaf path kind []
      return es ++ [(k, table kind sub)]
    | some (table kind sub) =>
      if kind = .inline ∨ (dots ∧ kind = .defined) then none
      else do
        let sub ← edit dots leaf path kind sub
        return replace k (table kind sub) es
    | some (tables elements) =>
      match elements.reverse with
      | [] => none
      | last :: before => do
        let last ← edit dots leaf path .defined last
        return replace k (tables (before.reverse ++ [last])) es
    | some _ => none

/-- A key has one value. -/
def addEntry (k : String) (v : Toml) (es : Entries) : Option Entries :=
  if (find? k es).isSome then none else some (es ++ [(k, v)])

/-- Keys with dots add to tables that only such keys have made. -/
def assign (path : List String) (k : String) (v : Toml) (es : Entries) : Option Entries :=
  edit true (fun kind sub => if path = [] ∨ kind = .dotted then addEntry k v sub else none) path
    .defined es

/-- In the table of the last header. -/
def assignUnder (header path : List String) (k : String) (v : Toml) (root : Entries) :
    Option Entries :=
  edit false (fun _ es => assign path k v es) header .defined root

/-- A table has one header; one that headers have only passed through can still have its own. -/
def openTable (path : List String) (k : String) (root : Entries) : Option Entries :=
  edit false (fun _ es => match find? k es with
    | none => some (es ++ [(k, table .defined [])])
    | some (table .implied sub) => some (replace k (table .defined sub) es)
    | some _ => none) path .defined root

def openElement (path : List String) (k : String) (root : Entries) : Option Entries :=
  edit false (fun _ es => match find? k es with
    | none => some (es ++ [(k, tables [[]])])
    | some (tables l) => some (replace k (tables (l ++ [[]])) es)
    | some _ => none) path .defined root

end Toml

end TableAlteration
