import TableAlteration.Run.Basic
import TableAlteration.Settings.Basic

namespace TableAlteration

def temporaryName (table middle : String) (suffix : UInt32) : String :=
  table ++ middle ++ Text.hexNat suffix.toNat

/-- The catalog is asked only for names that no physical table has. -/
def isFree (name : String) : Run Bool := do
  let taken ← Run.ask (Database.tableExists name) .backend
  if taken then return false
  else
    let known ← Run.ask (Database.tableSchema name) .backend
    return known.isNone

def freeName? (table middle : String) : Nat → Run (Option String)
  | 0 => return none
  | attempts + 1 => do
    let name := temporaryName table middle (← Run.draw)
    if ← isFree name then return some name
    else
      Run.note ⟨.debug, "temporary table name taken", [("candidate", name)]⟩
      freeName? table middle attempts

def freeName (settings : Settings) (table : String) : Run String := do
  match ← freeName? table settings.tempNameInfix settings.maxTempNameAttempts.toNat with
  | some name => return name
  | none => Run.fail (.nameCollision table settings.maxTempNameAttempts)

end TableAlteration
