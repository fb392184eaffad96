import TableAlteration.Settings.Basic
import TableAlteration.Toml.Reader

namespace TableAlteration.Settings

/-- The entry as it is read; `default` if there is none. -/
def entry? {α : Type} (es : Toml.Entries) (name : String) (read : Toml → Option α) (default : α) :
    Option α :=
  match Toml.find? name es with
  | some v => read v
  | none => some default

def attempts? : Toml → Option UInt32
  | .integer i => if 0 ≤ i ∧ i < Nat.pow 2 32 then some (UInt32.ofNat i.toNat) else none
  | _ => none

def string? : Toml → Option String
  | .string s => some s
  | _ => none

def flag? : Toml → Option Bool
  | .boolean b => some b
  | _ => none

def ofEntries? (es : Toml.Entries) : Option Settings := do
  let d : Settings := {}
  return {
    maxTempNameAttempts := ← entry? es "max_temp_name_attempts" attempts? d.maxTempNameAttempts
    tempNameInfix := ← entry? es "temp_name_infix" string? d.tempNameInfix
    storeExtendedSchema := ← entry? es "store_extended_schema" flag? d.storeExtendedSchema }

def read (text : String) : Except SettingsError Settings :=
  match (Toml.read? text).bind ofEntries? with
  | none => .error .unreadable
  | some s => s.validate.map fun _ => s

end TableAlteration.Settings
