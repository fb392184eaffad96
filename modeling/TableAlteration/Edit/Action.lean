import TableAlteration.Edit.Requirements
import TableAlteration.Log
import TableAlteration.Table.Basic

namespace TableAlteration

/-- The number of a field, by which edits of the same field are recognised. -/
structure Uid where
  number : Nat
  deriving DecidableEq, Repr

namespace Uid

instance : Ord Uid := ⟨fun a b => compare a.number b.number⟩

theorem compare_eq (a b : Uid) : compare a b = compare a.number b.number := rfl

instance : Std.TransOrd Uid where
  eq_swap := by
    intro a b
    rw [compare_eq, compare_eq]
    exact Std.OrientedCmp.eq_swap
  isLE_trans := by
    intro a b c
    rw [compare_eq, compare_eq, compare_eq]
    exact Std.TransCmp.isLE_trans

instance : Std.LawfulEqOrd Uid where
  compare_self := by
    intro a
    rw [compare_eq]
    exact Std.ReflCmp.compare_self
  eq_of_compare h := congrArg Uid.mk (Std.LawfulEqOrd.eq_of_compare h)

def write (u : Uid) : String := "#" ++ toString u.number

end Uid

/-- An edit names its field as the field is called when its turn comes. -/
inductive Action where
  | change (uid : Uid) (field property : String) (value : Value)
  | remove (uid : Uid) (field : String)
  | insert (uid : Uid) (index : Nat) (definition : Field)
  | move (uid : Uid) (field : String) (index : Nat)
  deriving DecidableEq

namespace Action

def rename (uid : Uid) (field target : String) : Action := change uid field "name" (.text target)

def uid : Action → Uid
  | change u .. | remove u _ | insert u .. | move u .. => u

def fieldName : Action → String
  | change _ f .. | remove _ f | move _ f _ => f
  | insert _ _ d => d.name

def withFieldName (name : String) : Action → Action
  | change u _ p v => change u name p v
  | remove u _ => remove u name
  | insert u i d => insert u i { d with name := name }
  | move u _ i => move u name i

def propertyKey? : Action → Option String
  | change _ _ p _ => some (Text.fold p)
  | _ => none

def isRename : Action → Bool
  | change _ _ p _ => Text.sameName p "name"
  | _ => false

/-- The target of a rename, freed from surrounding blanks. -/
def newName? : Action → Option String
  | change _ _ p v => if Text.sameName p "name" then v.text?.map Text.trim else none
  | _ => none

/-- A rename to the name that the field has already. -/
def isIdleRename (a : Action) : Bool := a.newName?.any fun n => Text.sameName n a.fieldName

def requirements : Action → Except AlterError Requirements
  | change _ _ p _ => classify p
  | remove .. | insert .. => .ok { physical := true }
  | move .. => .ok { main := true }

def write : Action → String
  | change _ f p v =>
    if Text.sameName p "name" then "Rename table field \"" ++ f ++ "\" to \"" ++ v.write ++ "\""
    else
      "Set \"" ++ p ++ "\" property for table field \"" ++ f ++ "\" to \"" ++ v.write ++ "\""
  | remove _ f => "Remove table field \"" ++ f ++ "\""
  | insert _ i d => "Insert table field \"" ++ d.name ++ "\" at position " ++ toString i
  | move _ f i => "Move table field \"" ++ f ++ "\" to position " ++ toString i

end Action

/-- An action with its place in the submitted list and with what it needs. -/
structure Planned where
  order : Nat
  requirements : Requirements
  action : Action
  deriving DecidableEq

namespace Planned

def of (order : Nat) (a : Action) : Except AlterError Planned :=
  match a.requirements with
  | .ok r => .ok ⟨order, r, a⟩
  | .error e => .error e

def uid (p : Planned) : Uid := p.action.uid

def withFieldName (name : String) (p : Planned) : Planned :=
  { p with action := p.action.withFieldName name }

/-- Places are counted from one. -/
def write (p : Planned) : String := toString (p.order + 1) ++ ": " ++ p.action.write

end Planned

def planFrom : Nat → List Action → Except AlterError (List Planned)
  | _, [] => .ok []
  | n, a :: rest => do
    let p ← Planned.of n a
    let ps ← planFrom (n + 1) rest
    return p :: ps

def planAll (actions : List Action) : Except AlterError (List Planned) := planFrom 0 actions

/-- The first property that is unknown is reported. -/
def planEvents (actions : List Action) : List Event :=
  match planAll actions with
  | .error (.unknownProperty p) => [⟨.warn, "unknown field property", [("property", p)]⟩]
  | _ => []

def insertInOrder (p : Planned) : List Planned → List Planned
  | [] => [p]
  | q :: rest => if p.order ≤ q.order then p :: q :: rest else q :: insertInOrder p rest

/-- In ascending order of their places; actions with equal places keep their sequence. -/
def inOrder : List Planned → List Planned
  | [] => []
  | p :: rest => insertInOrder p (inOrder rest)

end TableAlteration
