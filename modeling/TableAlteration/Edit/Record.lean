import TableAlteration.Edit.Action

namespace TableAlteration

/-- What remains of the edits of one field: at most one of each kind, and one for each property
besides the name. -/
structure Record where
  removal : Option Planned := none
  insertion : Option Planned := none
  rename : Option Planned := none
  /-- By the folded names of the properties. -/
  properties : Dict String Planned := ∅
  movement : Option Planned := none
  deriving DecidableEq

namespace Record

def toList (r : Record) : List Planned :=
  r.removal.toList ++ r.insertion.toList ++ r.rename.toList ++ r.properties.values ++
    r.movement.toList

def size (r : Record) : Nat := r.toList.length

def isEmpty (r : Record) : Bool := r.toList.isEmpty

/-- All edits but the insertion name their field anew. -/
def withFieldName (name : String) (r : Record) : Record :=
  { r with
    removal := r.removal.map (·.withFieldName name)
    rename := r.rename.map (·.withFieldName name)
    properties := r.properties.map fun _ => Planned.withFieldName name
    movement := r.movement.map (·.withFieldName name) }

/-- The changes to a field's definition, in the order of their places. -/
def definitionChanges (r : Record) : List Planned :=
  inOrder (r.rename.toList ++ r.properties.values)

def applyChange (f : Field) (p : Planned) : Except AlterError Field :=
  match p.action with
  | .change _ _ property v => f.setNamed property v
  | _ => .ok f

/-- An insertion takes the later changes of the definition into itself. -/
def foldInto (r : Record) (definition : Field) : Except AlterError Field :=
  r.definitionChanges.foldlM applyChange definition

/-- Takes in an edit that precedes those recorded. Of two renames the later one stays, but it
starts from the earlier name; a removal makes changes, renames and moves before it void; an
insertion and a later removal cancel each other, and all edits between them. -/
def absorb (r : Record) (p : Planned) : Except AlterError Record :=
  match p.action with
  | .change _ field property _ =>
    if p.action.isRename then
      let kept := if r.rename.isNone ∧ r.removal.isNone then { r with rename := some p } else r
      .ok (kept.withFieldName field)
    else if r.removal.isNone ∧ !r.properties.contains (Text.fold property) then
      .ok { r with properties := r.properties.insert (Text.fold property) p }
    else .ok r
  | .remove .. => .ok { r with removal := some p }
  | .insert uid index definition =>
    if r.removal.isSome then .ok {}
    else do
      let folded ← r.foldInto definition
      return { r with
        insertion := some { p with action := .insert uid index folded }
        rename := none
        properties := ∅ }
  | .move .. =>
    if r.removal.isNone ∧ r.movement.isNone then .ok { r with movement := some p } else .ok r

/-- What is worth a report when an edit is taken in. -/
def remark? (r : Record) (p : Planned) : Option String :=
  match p.action with
  | .change .. =>
    if !p.action.isRename then none
    else if r.rename.isSome then some "merging rename chain"
    else if r.removal.isSome then some "dropping rename of removed field"
    else none
  | .insert .. => if r.removal.isSome then some "insert cancelled by later remove" else none
  | _ => none

def renamesIdly (r : Record) : Bool := r.rename.any (·.action.isIdleRename)

/-- A rename that comes back to the name at the start is no edit. -/
def settled (r : Record) : Record := if r.renamesIdly then { r with rename := none } else r

end Record

end TableAlteration
