import TableAlteration.Log
import TableAlteration.Store.Database

namespace TableAlteration

structure World where
  database : Database
  clock : Clock
  /-- The random ends of temporary names. -/
  suffixes : Nat → UInt32
  /-- So many of them have been used. -/
  drawn : Nat := 0
  log : List Event := []

def World.note (w : World) (e : Event) : World := { w with log := w.log ++ [e] }

/-- A step over the world that may fail. A failure keeps what was done and reported before it. -/
def Run (α : Type) := World → Except AlterError α × World

namespace Run

def pure {α : Type} (a : α) : Run α := fun w => (.ok a, w)

def bind {α β : Type} (m : Run α) (f : α → Run β) : Run β := fun w =>
  match m w with
  | (.ok a, w) => f a w
  | (.error e, w) => (.error e, w)

instance : Monad Run where
  pure := Run.pure
  bind := Run.bind

def fail {α : Type} (e : AlterError) : Run α := fun w => (.error e, w)

def lift {α : Type} (x : Except AlterError α) : Run α := fun w => (x, w)

def database : Run Database := fun w => (.ok w.database, w)

def clock : Run Clock := fun w => (.ok w.clock, w)

def note (e : Event) : Run Unit := fun w => (.ok (), w.note e)

def noteAll (l : List Event) : Run Unit := fun w => (.ok (), { w with log := w.log ++ l })

/-- The next random number. -/
def draw : Run UInt32 := fun w => (.ok (w.suffixes w.drawn), { w with drawn := w.drawn + 1 })

/-- A request to the database; `wrap` says what its failure means. -/
def ask {α : Type} (request : Answer α) (wrap : BackendError → AlterError) : Run α := fun w =>
  match request w.database with
  | (.ok a, db) => (.ok a, { w with database := db })
  | (.error e, db) => (.error (wrap e), { w with database := db })

/-- A failure of `m` is followed by `cleanup`, and stays the failure of the whole. -/
def orCleanUp {α : Type} (m : Run α) (cleanup : AlterError → Run Unit) : Run α := fun w =>
  match m w with
  | (.ok a, w) => (.ok a, w)
  | (.error e, w) => (.error e, (cleanup e w).2)

end Run

inductive Stage where
  | planning | requirementsComputed | schemaMutated | tableCreated | dataCopied | swapped
  | committed | failed
  deriving DecidableEq, Repr

def Stage.name : Stage → String
  | planning => "Planning"
  | requirementsComputed => "RequirementsComputed"
  | schemaMutated => "SchemaMutated"
  | tableCreated => "TableCreated"
  | dataCopied => "DataCopied"
  | swapped => "Swapped"
  | committed => "Committed"
  | failed => "Failed"

def enterStage (table : String) (stage : Stage) : Run Unit :=
  Run.note ⟨.debug, "alter table stage", [("table", table), ("stage", stage.name)]⟩

end TableAlteration
