import TableAlteration.Text.Digits
import TableAlteration.Text.Hidden

namespace TableAlteration.Text

def escapeChar (c : Char) : List Char :=
  if c = '"' then ['\\', '"']
  else if c = '\\' then ['\\', '\\']
  else if c = '\n' then ['\\', 'n']
  else if c = '\r' then ['\\', 'r']
  else if c = '\t' then ['\\', 't']
  else if c.toNat = 0 then ['\\', '0']
  else if c.toNat < 32 ∨ isHidden c then
    "\\u\x7b".toList ++ Nat.toDigits 16 c.toNat ++ "\x7d".toList
  else [c]

/-- Between double quotes, with everything that would be unreadable there escaped. -/
def quoted (s : String) : String :=
  String.ofList ('"' :: s.toList.flatMap escapeChar ++ ['"'])

/-- A list of quoted texts in square brackets. -/
def quotedList (l : List String) : String :=
  "[" ++ String.intercalate ", " (l.map quoted) ++ "]"

end TableAlteration.Text
