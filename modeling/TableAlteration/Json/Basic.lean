import TableAlteration.Decimal.Written
import TableAlteration.Text.Digits

namespace TableAlteration

inductive Json where
  | null
  | bool (b : Bool)
  | int (i : Int)
  | float (x : Binary64)
  | str (s : String)
  | arr (items : List Json)
  | obj (members : List (String × Json))
  deriving Repr

namespace Json

def member? (members : List (String × Json)) (name : String) : Option Json :=
  (members.find? fun m => m.1 = name).map (·.2)

/-- `null` if there is none. -/
def ofOption {α : Type} (f : α → Json) : Option α → Json
  | some a => f a
  | none => null

def escapeChar (c : Char) : List Char :=
  if c = '"' then ['\\', '"']
  else if c = '\\' then ['\\', '\\']
  else if c.toNat < 32 then
    ['\\', 'u', '0', '0', Text.hexDigit (c.toNat / 16), Text.hexDigit c.toNat]
  else [c]

def quote (s : String) : String :=
  String.ofList ('"' :: s.toList.flatMap escapeChar ++ ['"'])

mutual

def write : Json → String
  | null => "null"
  | bool b => if b then "true" else "false"
  | int i => toString i
  | float x => if x.isFinite then Decimal.Format.literal.write x else "null"
  | str s => quote s
  | arr items => "[" ++ String.intercalate "," (writeItems items) ++ "]"
  | obj members => "\x7b" ++ String.intercalate "," (writeMembers members) ++ "\x7d"

def writeItems : List Json → List String
  | [] => []
  | j :: rest => j.write :: writeItems rest

def writeMembers : List (String × Json) → List String
  | [] => []
  | (k, j) :: rest => (quote k ++ ":" ++ j.write) :: writeMembers rest

end

end Json

end TableAlteration
