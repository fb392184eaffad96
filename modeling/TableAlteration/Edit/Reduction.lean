import TableAlteration.Edit.Record
import TableAlteration.Text.Quoted

namespace TableAlteration

/-- One record for each field that is still edited. -/
structure Reduction where
  records : Dict Uid Record
  deriving DecidableEq

namespace Reduction

/-- The record of a field; one without edits if the field has none. -/
def recordOf (m : Dict Uid Record) (uid : Uid) : Record := (m.get? uid).getD {}

def absorb (m : Dict Uid Record) (p : Planned) : Except AlterError (Dict Uid Record) := do
  let r ← (recordOf m p.uid).absorb p
  return m.insert p.uid r

/-- The edits come from the last to the first. -/
def absorbAll (m : Dict Uid Record) (l : List Planned) : Except AlterError (Dict Uid Record) :=
  l.foldlM absorb m

def settle (m : Dict Uid Record) : Dict Uid Record :=
  (m.map fun _ r => r.settled).filter fun _ r => !r.isEmpty

def of (l : List Planned) : Except AlterError Reduction := do
  let m ← absorbAll ∅ (inOrder l).reverse
  return ⟨settle m⟩

def field? (r : Reduction) (uid : Uid) : Option Record := r.records.get? uid

def isRemoved (r : Reduction) (uid : Uid) : Bool := (r.field? uid).any (·.removal.isSome)

def isEmpty (r : Reduction) : Bool := r.records.isEmpty

def size (r : Reduction) : Nat := (r.records.values.map Record.size).foldr (· + ·) 0

def toList (r : Reduction) : List Planned := r.records.values.flatMap Record.toList

def requirements (r : Reduction) : Requirements :=
  Requirements.all (r.toList.map (·.requirements))

/-- The remaining edits in the order of their places. -/
def ordered (r : Reduction) : List Planned := inOrder r.toList

private def report (uid : Uid) (message : String) : Event := ⟨.debug, message, [("uid", uid.write)]⟩

def absorbEvents : Dict Uid Record → List Planned → List Event
  | _, [] => []
  | m, p :: rest =>
    (((recordOf m p.uid).remark? p).map (report p.uid)).toList ++
      match absorb m p with
      | .ok n => absorbEvents n rest
      | .error _ => []

def settleEvents (m : Dict Uid Record) : List Event :=
  let idle := m.filter fun _ r => r.renamesIdly
  idle.keys.map (report · "discarding no-op rename") ++
    (settle m).entries.map fun (uid, r) =>
      ⟨.debug, "simplified field actions",
        [("uid", uid.write), ("actions", Text.quotedList (r.toList.map Planned.write))]⟩

/-- What is reported while the edits are reduced. -/
def events (l : List Planned) : List Event :=
  let reversed := (inOrder l).reverse
  absorbEvents ∅ reversed ++
    match absorbAll ∅ reversed with
    | .ok m => settleEvents m
    | .error _ => []

end Reduction

end TableAlteration
