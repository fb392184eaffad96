import TableAlteration.Error
import TableAlteration.Sql.Statement
import TableAlteration.Store.Catalog

namespace TableAlteration

inductive FailPoint where
  | createTable | execute | renameTable | dropTable | storeField | storeTable | storeExtended
  | tableExists | tempLookup | tableSchema
  deriving DecidableEq, Repr

namespace FailPoint

def all : List FailPoint :=
  [createTable, execute, renameTable, dropTable, storeField, storeTable, storeExtended,
    tableExists, tempLookup, tableSchema]

def name : FailPoint → String
  | createTable => "CreateTable"
  | execute => "Execute"
  | renameTable => "RenameTable"
  | dropTable => "DropTable"
  | storeField => "StoreField"
  | storeTable => "StoreTable"
  | storeExtended => "StoreExtended"
  | tableExists => "TableExists"
  | tempLookup => "TempLookup"
  | tableSchema => "TableSchema"

def ofName? (s : String) : Option FailPoint := all.find? fun p => p.name = s

def message (p : FailPoint) : String := "injected " ++ p.name ++ " failure"

end FailPoint

structure Database where
  catalog : Catalog := {}
  /-- The folded names of the physical tables. -/
  tables : Dict String Unit := ∅
  /-- What was asked to be written, in order, failures included. -/
  journal : List String := []
  writes : Nat := 0
  failing : List FailPoint := []
  /-- Writes of catalog rows and of extended data that fail as well, by their numbers. -/
  refused : List Nat := []
  /-- Tables whose names begin so exist as well, whatever the case. -/
  occupied : Option String := none
  readOnly : Bool := false
  inUse : Bool := true
  /-- The dialect of the statements that copy data. -/
  dialect : Sql.Dialect := .sqlite
  /-- The names whose existence was asked for, the last one first. -/
  probed : List String := []
  /-- So many of the first names asked for exist. -/
  occupiedFirst : Nat := 0
  /-- So many further names are known to the catalog. -/
  knownFirst : Nat := 0
  deriving DecidableEq

/-- What a request answers, and what it leaves behind. -/
abbrev Answer (α : Type) := Database → Except BackendError α × Database

namespace Database

/-- Physically and in the catalog. -/
def withTable (db : Database) (t : Table) : Database :=
  { db with
    catalog := db.catalog.register t
    tables := db.tables.insert (Text.fold t.name) () }

def hasTable (db : Database) (name : String) : Bool := db.tables.contains (Text.fold name)

def isOccupied (db : Database) (name : String) : Bool :=
  db.occupied.any fun start => Text.startsWith (Text.fold start) (Text.fold name)

def isTaken (db : Database) (name : String) : Bool := db.isOccupied name || db.hasTable name

/-- The name is remembered as asked for. -/
def tableExists (name : String) : Answer Bool := fun db =>
  let asked := { db with probed := name :: db.probed }
  if .tableExists ∈ db.failing then (.error (.other FailPoint.tableExists.message), asked)
  else (.ok (asked.probed.length ≤ db.occupiedFirst || db.isTaken name), asked)

/-- A look-up of the name that was asked for last is one of a temporary name. -/
def tableSchema (name : String) : Answer (Option Table) := fun db =>
  if db.probed.head? = some name then
    if .tempLookup ∈ db.failing then (.error (.other FailPoint.tempLookup.message), db)
    else if db.probed.length ≤ db.occupiedFirst + db.knownFirst then
      (.ok (some { name := name }), db)
    else (.ok (db.catalog.table? name), db)
  else if .tableSchema ∈ db.failing then (.error (.other FailPoint.tableSchema.message), db)
  else (.ok (db.catalog.table? name), db)

/-- Enters a write into the journal. -/
def enter (statement : String) (db : Database) : Database :=
  { db with journal := db.journal ++ [statement], writes := db.writes + 1 }

/-- A write enters the journal, also when it fails. -/
def write {α : Type} (p : FailPoint) (statement : String) (effect : Answer α) : Answer α :=
  fun db =>
  let entered := db.enter statement
  if p ∈ db.failing then (.error (.query statement p.message), entered) else effect entered

/-- The journal has the statement for SQLite. -/
def createTable (t : Table) : Answer Unit :=
  write .createTable ((Sql.createTable? .sqlite t).getD "") fun db =>
    (.ok (), { db with tables := db.tables.insert (Text.fold t.name) () })

/-- The number of affected rows; there are no rows. -/
def execute (sql : String) : Answer Nat := write .execute sql fun db => (.ok 0, db)

def renameTable (name target : String) (replace : Bool) : Answer Unit :=
  write .renameTable ("RENAME TABLE " ++ name ++ " TO " ++ target) fun db =>
    if db.hasTable target && !replace then
      (.error (.other ("table \"" ++ target ++ "\" already exists")), db)
    else if db.hasTable name then
      let others := db.tables.erase (Text.fold name)
      (.ok (), { db with tables := others.insert (Text.fold target) () })
    else (.error (.other ("no such table: " ++ name)), db)

def dropTable (name : String) : Answer Unit :=
  write .dropTable ("DROP TABLE " ++ name) fun db =>
    (.ok (), { db with tables := db.tables.erase (Text.fold name) })

def storeField (table : String) (position : Nat) (f : Field) : Answer Unit :=
  let statement := "STORE FIELD " ++ table ++ "." ++ f.name ++ " AT " ++ toString position
  write .storeField statement fun db =>
    if db.writes ∈ db.refused then (.error (.query statement FailPoint.storeField.message), db)
    else match db.catalog.storeField? table position f with
      | some c => (.ok (), { db with catalog := c })
      | none => (.error (.other ("no catalog entry for table \"" ++ table ++ "\"")), db)

def storeTable (t : Table) : Answer Unit :=
  write .storeTable ("STORE TABLE " ++ t.name) fun db =>
    (.ok (), { db with catalog := db.catalog.register t })

/-- This write fails before it enters the journal. -/
def storeExtended (t : Table) : Answer Unit := fun db =>
  if .storeExtended ∈ db.failing ∨ db.writes + 1 ∈ db.refused then
    (.error (.other FailPoint.storeExtended.message), db)
  else
    let entered := db.enter ("STORE EXTENDED " ++ t.name)
    (.ok (), { entered with catalog := db.catalog.storeExtended t })

end Database

end TableAlteration
