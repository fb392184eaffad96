import TableAlteration.Edit.Action
import TableAlteration.Sql.Quote
import TableAlteration.Stored.Schema

namespace TableAlteration

open Stored

namespace Uid

def toJson (u : Uid) : Json := .int u.number

def ofJson? (j : Json) : Option Uid := (word? j).map Uid.mk

end Uid

namespace Action

def toJson : Action → Json
  | change u f p v =>
    .obj [("ChangeFieldProperty", .obj [("uid", u.toJson), ("field_name", .str f),
      ("property", .str p), ("value", v.toJson)])]
  | remove u f => .obj [("RemoveField", .obj [("uid", u.toJson), ("field_name", .str f)])]
  | insert u i d =>
    .obj [("InsertField", .obj [("uid", u.toJson), ("index", .int i), ("field", d.toJson)])]
  | move u f i =>
    .obj [("MoveFieldPosition", .obj [("uid", u.toJson), ("field_name", .str f),
      ("index", .int i)])]

/-- What an edit holds is an object. -/
def ofJson? (j : Json) : Option Action := do
  match ← choice? j with
  | ("ChangeFieldProperty", some (.obj ms)) =>
    return change (← member? ms "uid" Uid.ofJson?) (← member? ms "field_name" text?)
      (← member? ms "property" text?) (← member? ms "value" Value.ofJson?)
  | ("RemoveField", some (.obj ms)) =>
    return remove (← member? ms "uid" Uid.ofJson?) (← member? ms "field_name" text?)
  | ("InsertField", some (.obj ms)) =>
    return insert (← member? ms "uid" Uid.ofJson?) (← member? ms "index" word?)
      (← member? ms "field" Field.ofJson?)
  | ("MoveFieldPosition", some (.obj ms)) =>
    return move (← member? ms "uid" Uid.ofJson?) (← member? ms "field_name" text?)
      (← member? ms "index" word?)
  | _ => none

end Action

namespace Sql.Dialect

def toJson (d : Dialect) : Json := .str d.name

def ofJson? (j : Json) : Option Dialect := do ofName? (← name? j)

end Sql.Dialect

end TableAlteration
