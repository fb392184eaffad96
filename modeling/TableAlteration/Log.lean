namespace TableAlteration

inductive Level where
  | debug | info | warn
  deriving DecidableEq, Repr

def Level.name : Level → String
  | debug => "DEBUG"
  | info => "INFO"
  | warn => "WARN"

structure Event where
  level : Level
  message : String
  fields : List (String × String) := []
  deriving DecidableEq, Repr

def Event.line (e : Event) : String :=
  e.level.name ++ " " ++ e.message ++
    String.join (e.fields.map fun (name, value) => " " ++ name ++ "=" ++ value)

end TableAlteration
