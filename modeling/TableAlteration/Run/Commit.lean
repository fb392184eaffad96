import TableAlteration.Run.TemporaryName

namespace TableAlteration

def storeExtended (settings : Settings) (t : Table) : Run Unit :=
  if settings.storeExtendedSchema then
    Run.ask (Database.storeExtended t) (.catalogWriteFailed t.name)
  else return ()

/-- The fields whose catalog rows are to be written, with their positions. -/
def Draft.staleFields (d : Draft) : List (Nat × Field) :=
  (d.rows.zipIdx.filter fun (r, i) => d.isStale i r).map fun (r, i) => (i, r.field)

def storeFields (table : String) : List (Nat × Field) → Run Unit
  | [] => return ()
  | (i, f) :: rest => do
    Run.ask (Database.storeField table i f) (.catalogWriteFailed table)
    storeFields table rest

def updateInPlace (settings : Settings) (d : Draft) (needs : Requirements) : Run Table := do
  storeFields d.name d.staleFields
  if needs.extended then storeExtended settings d.table
  Run.note ⟨.info, "table altered in place",
    [("table", d.name), ("fields", toString d.staleFields.length)]⟩
  return d.table

def copyData (temporary : String) (plan : CopyPlan) : Run Unit := do
  if plan.isEmpty then
    Run.note ⟨.warn, "no columns to copy; rebuilt table starts empty", [("table", plan.source)]⟩
  else
    let db ← Run.database
    let sql := Sql.insertSelect db.dialect plan
    Run.note ⟨.debug, "copying table data", [("sql", sql)]⟩
    let _ ← Run.ask (Database.execute sql) (.dataCopyFailed temporary sql)

def copyAndSwap (table temporary : String) (d : Draft) : Run Unit := do
  let clock ← Run.clock
  copyData temporary (d.copyPlan clock table temporary)
  enterStage table .dataCopied
  Run.ask (Database.renameTable temporary table true) (.swapFailed temporary table)
  enterStage table .swapped

/-- A table that cannot be dropped is reported and left. -/
def dropTemporary (temporary : String) : Run Unit := fun w =>
  match Database.dropTable temporary w.database with
  | (.ok (), db) => (.ok (), { w with database := db })
  | (.error e, db) =>
    (.ok (), { w with database := db }.note
      ⟨.warn, "could not drop temporary table", [("table", temporary), ("error", e.message)]⟩)

def rebuild (settings : Settings) (table : String) (d : Draft) : Run Table := do
  let temporary ← freeName settings table
  let fresh := { d.table with name := temporary }
  Run.ask (Database.createTable fresh) (.physicalCreateFailed temporary)
  enterStage table .tableCreated
  (copyAndSwap table temporary d).orCleanUp fun _ => dropTemporary temporary
  let altered := { d.table with name := table }
  Run.ask (Database.storeTable altered) (.catalogWriteFailed table)
  storeExtended settings altered
  Run.note ⟨.info, "table rebuilt", [("table", table), ("temporary", temporary)]⟩
  return altered

end TableAlteration
