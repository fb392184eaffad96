import TableAlteration.Json.Basic
import TableAlteration.Field.Value

namespace TableAlteration.Stored

def text? : Json → Option String
  | .str s => some s
  | _ => none

def flag? : Json → Option Bool
  | .bool b => some b
  | _ => none

def integer? : Json → Option Int
  | .int i => some i
  | _ => none

/-- An unsigned number of 64 bits. -/
def word? : Json → Option Nat
  | .int i => if 0 ≤ i ∧ i < Nat.pow 2 64 then some i.toNat else none
  | _ => none

/-- Integers count as numbers too. -/
def number? : Json → Option Binary64
  | .float x => some x
  | .int i => some (Binary64.ofFloat (Float.ofInt i))
  | _ => none

def list? {α : Type} (item : Json → Option α) : Json → Option (List α)
  | .arr l => l.mapM item
  | _ => none

/-- Null stands for nothing. -/
def optional? {α : Type} (item : Json → Option α) : Json → Option (Option α)
  | .null => some none
  | j => (item j).map some

/-- The members of an object, or those of an array with as many values as there are names. -/
def members? (names : List String) : Json → Option (List (String × Json))
  | .obj ms => some ms
  | .arr l => if l.length = names.length then some (names.zip l) else none
  | _ => none

def member? {α : Type} (ms : List (String × Json)) (name : String) (item : Json → Option α) :
    Option α :=
  (Json.member? ms name).bind item

/-- A missing member stands for nothing. -/
def optionalMember? {α : Type} (ms : List (String × Json)) (name : String)
    (item : Json → Option α) : Option (Option α) :=
  optional? item ((Json.member? ms name).getD .null)

/-- The name of an alternative, and what it holds. -/
def choice? : Json → Option (String × Option Json)
  | .str s => some (s, none)
  | .obj [(s, j)] => some (s, some j)
  | _ => none

/-- The name of an alternative that holds nothing. -/
def name? (j : Json) : Option String :=
  match choice? j with
  | some (s, none) | some (s, some .null) => some s
  | _ => none

end TableAlteration.Stored
