import TableAlteration.Edit.Reduction
import TableAlteration.Run.Commit

namespace TableAlteration

inductive Mode where
  | commit
  /-- Plans the alteration and writes nothing. -/
  | simulate
  /-- Only estimates what the submitted edits need. -/
  | requirementsOnly
  deriving DecidableEq, Repr

structure Outcome where
  requirements : Requirements
  /-- `none` if nothing has to be done or only the requirements were asked for. -/
  strategy : Option Strategy
  /-- The resulting definition; `none` if only the requirements were asked for. -/
  table : Option Table
  /-- The remaining edits, in order. -/
  trace : List String
  before : Nat
  after : Nat
  deriving DecidableEq

/-- The outcome as long as nothing is written: the definition is the old one. -/
def Outcome.planned (t : Table) (submitted : List Planned) (r : Reduction) : Outcome where
  requirements := r.requirements
  strategy := Strategy.for? r.requirements
  table := some t
  trace := r.ordered.map Planned.write
  before := submitted.length
  after := r.ordered.length

structure Alteration where
  settings : Settings := {}
  actions : List Action := []
  deriving DecidableEq

namespace Alteration

def add (a : Alteration) (x : Action) : Alteration := { a with actions := a.actions ++ [x] }

/-- The action at `i`, if there is one, and the alteration without it. -/
def remove (a : Alteration) (i : Nat) : Option Action × Alteration :=
  (a.actions[i]?, { a with actions := a.actions.eraseIdx i })

def clear (a : Alteration) : Alteration := { a with actions := [] }

def withActions (a : Alteration) (l : List Action) : Alteration := { a with actions := l }

/-- The submitted actions, as they are reported. -/
def actionEvents (a : Alteration) : List Event :=
  ⟨.debug, "alter table actions", [("count", toString a.actions.length)]⟩ ::
    a.actions.zipIdx.map fun (x, i) => ⟨.debug, toString (i + 1) ++ ": " ++ x.write, []⟩

/-- The table's definition, if the database can be altered at all. -/
def openTable (table : String) : Run Table := do
  let db ← Run.database
  if db.readOnly then Run.fail .readOnlyConnection
  else if !db.inUse then Run.fail .noActiveDatabase
  else
    match ← Run.ask (Database.tableSchema table) .backend with
    | some t => return t
    | none => Run.fail (.tableNotFound table)

def plan (a : Alteration) : Run (List Planned) := do
  Run.noteAll a.actionEvents
  Run.noteAll (planEvents a.actions)
  Run.lift (planAll a.actions)

def estimate (table : String) (planned : List Planned) : Run Outcome := do
  let needs := Requirements.all (planned.map (·.requirements))
  enterStage table .requirementsComputed
  Run.note ⟨.debug, "requirements estimated", [("table", table), ("requirements", needs.write)]⟩
  return ⟨needs, none, none, [], planned.length, planned.length⟩

def reduce (table : String) (planned : List Planned) : Run Reduction := do
  Run.noteAll (Reduction.events planned)
  let r ← Run.lift (Reduction.of planned)
  enterStage table .requirementsComputed
  Run.note ⟨.debug, "requirements computed",
    [("table", table), ("requirements", r.requirements.write),
      ("before", toString planned.length), ("after", toString r.ordered.length)]⟩
  return r

/-- The edited definition. -/
def edited (t : Table) (l : List Planned) : Except AlterError Draft := do
  let d ← (Draft.of t).applyAll l
  d.finish

def commit (settings : Settings) (table : String) (t : Table) (r : Reduction) (s : Strategy) :
    Run Table := do
  let d ← Run.lift (edited t r.ordered)
  enterStage table .schemaMutated
  let altered ← match s with
    | .rebuild => rebuild settings t.name d
    | .inPlace => updateInPlace settings d r.requirements
  enterStage table .committed
  return altered

def run (a : Alteration) (table : String) (mode : Mode) : Run Outcome := do
  enterStage table .planning
  let t ← openTable table
  let planned ← a.plan
  match mode with
  | .requirementsOnly => estimate table planned
  | .simulate => do
    let r ← reduce table planned
    return Outcome.planned t planned r
  | .commit => do
    let r ← reduce table planned
    let outcome := Outcome.planned t planned r
    match outcome.strategy with
    | none => return outcome
    | some s =>
      let altered ← commit a.settings table t r s
      return { outcome with table := some altered }

/-- A failure is reported after all that led to it. -/
def execute (a : Alteration) (table : String) (mode : Mode) : Run Outcome :=
  (a.run table mode).orCleanUp fun e => do
    enterStage table .failed
    Run.note ⟨.debug, "alter table failed", [("table", table), ("error", e.message)]⟩

end Alteration

end TableAlteration
