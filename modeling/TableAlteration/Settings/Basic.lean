namespace TableAlteration

structure Settings where
  /-- How many temporary names are tried before an alteration gives up. -/
  maxTempNameAttempts : UInt32 := 16
  /-- Stands between the name of the table and the random end of a temporary name. -/
  tempNameInfix : String := "_temp"
  /-- Whether the extended data of fields is written to the catalog. -/
  storeExtendedSchema : Bool := true
  deriving DecidableEq, Repr

inductive SettingsError where
  | unreadable
  | invalid (name reason : String)
  deriving DecidableEq, Repr

def SettingsError.message : SettingsError → String
  | unreadable => "Failed to parse alter-table settings"
  | invalid name reason => "Invalid alter-table setting \"" ++ name ++ "\": " ++ reason

/-- At least one temporary name must be tried. -/
def Settings.validate (s : Settings) : Except SettingsError Unit :=
  if s.maxTempNameAttempts = 0 then .error (.invalid "max_temp_name_attempts" "must be at least 1")
  else .ok ()

end TableAlteration
