import TableAlteration.Proofs.Dict
import TableAlteration.Store.Database

namespace TableAlteration

/-- The database without its record of the names that were asked for. -/
def Database.unprobed (db : Database) : Database := { db with probed := [] }

/-- What a database holds, without its records of what was asked. -/
def Database.content (db : Database) : Database :=
  { db with journal := [], writes := 0, probed := [] }

/-- The physical tables are left out as well. -/
def Database.withoutTables (db : Database) : Database := { db.content with tables := ∅ }

namespace Database

/-- Enters several writes, one after another. -/
def enterAll (statements : List String) (db : Database) : Database :=
  { db with
    journal := db.journal ++ statements
    writes := db.writes + statements.length }

theorem enterAll_nil (db : Database) : db.enterAll [] = db := by
  simp [enterAll]

theorem enterAll_append (k l : List String) (db : Database) :
    db.enterAll (k ++ l) = (db.enterAll k).enterAll l := by
  simp [enterAll, Nat.add_assoc]

variable {α : Type} {p : FailPoint} {statement : String} {effect : Answer α} {db db' : Database}
  {a : α} {s : BackendError}

theorem content_of_unprobed (h : db'.unprobed = db.unprobed) : db'.content = db.content :=
  congrArg (fun d : Database => { d with journal := [], writes := 0 }) h

theorem catalog_of_content (h : db'.content = db.content) : db'.catalog = db.catalog := by
  have h' : db'.content.catalog = db.content.catalog := by rw [h]
  exact h'

theorem tables_of_content (h : db'.content = db.content) : db'.tables = db.tables := by
  have h' : db'.content.tables = db.content.tables := by rw [h]
  exact h'

theorem failing_of_content (h : db'.content = db.content) : db'.failing = db.failing := by
  have h' : db'.content.failing = db.content.failing := by rw [h]
  exact h'

theorem withoutTables_of_content {tables : Dict String Unit}
    (h : db'.content = { db.content with tables := tables }) :
    db'.withoutTables = db.withoutTables :=
  congrArg (fun d : Database => { d with tables := ∅ }) h

theorem catalog_of_withoutTables (h : db'.withoutTables = db.withoutTables) :
    db'.catalog = db.catalog := by
  have h' : db'.withoutTables.catalog = db.withoutTables.catalog := by rw [h]
  exact h'

theorem catalog_of_written {c : Catalog}
    (h : db'.withoutTables = { db.withoutTables with catalog := c }) : db'.catalog = c := by
  have h' : db'.withoutTables.catalog = c := by rw [h]
  exact h'

theorem write_eq_ok : write p statement effect db = (.ok a, db') ↔
    p ∉ db.failing ∧ effect (db.enter statement) = (.ok a, db') := by
  unfold write
  simp only
  split
  · rename_i h
    simp [h]
  · rename_i h
    simp [h]

theorem write_eq_error : write p statement effect db = (.error s, db') ↔
    p ∈ db.failing ∧ s = .query statement p.message ∧ db' = db.enter statement ∨
      p ∉ db.failing ∧ effect (db.enter statement) = (.error s, db') := by
  unfold write
  simp only
  split
  · rename_i h
    simp [h, eq_comm]
  · rename_i h
    simp [h]

theorem createTable_eq_ok {t : Table} {u : Unit} (h : createTable t db = (.ok u, db')) :
    db' = { db.enter ((Sql.createTable? .sqlite t).getD "") with
      tables := db.tables.insert (Text.fold t.name) () } := by
  obtain ⟨-, h⟩ := write_eq_ok.1 h
  cases h
  rfl

theorem createTable_eq_error {t : Table} (h : createTable t db = (.error s, db')) :
    FailPoint.createTable ∈ db.failing ∧
      (∃ sql, s = .query sql FailPoint.createTable.message) ∧ db'.content = db.content := by
  rcases write_eq_error.1 h with ⟨hp, rfl, rfl⟩ | ⟨-, h⟩
  · exact ⟨hp, ⟨_, rfl⟩, rfl⟩
  · cases h

theorem execute_eq_ok {sql : String} {n : Nat} (h : execute sql db = (.ok n, db')) :
    db' = db.enter sql := by
  obtain ⟨-, h⟩ := write_eq_ok.1 h
  cases h
  rfl

theorem execute_eq_error {sql : String} (h : execute sql db = (.error s, db')) :
    FailPoint.execute ∈ db.failing ∧ s = .query sql FailPoint.execute.message ∧
      db'.content = db.content := by
  rcases write_eq_error.1 h with ⟨hp, rfl, rfl⟩ | ⟨-, h⟩
  · exact ⟨hp, rfl, rfl⟩
  · cases h

/-- A table that is there can be put in the place of another. -/
theorem renameTable_eq_error {name target : String} (ht : db.hasTable name)
    (h : renameTable name target true db = (.error s, db')) :
    FailPoint.renameTable ∈ db.failing ∧
      (∃ sql, s = .query sql FailPoint.renameTable.message) ∧ db'.content = db.content := by
  rcases write_eq_error.1 h with ⟨hp, rfl, rfl⟩ | ⟨-, h⟩
  · exact ⟨hp, ⟨_, rfl⟩, rfl⟩
  · have ht' : (db.enter ("RENAME TABLE " ++ name ++ " TO " ++ target)).hasTable name := ht
    simp [ht'] at h

theorem renameTable_eq_ok {name target : String} {replace : Bool} {u : Unit}
    (h : renameTable name target replace db = (.ok u, db')) :
    db' = { db.enter ("RENAME TABLE " ++ name ++ " TO " ++ target) with
      tables := (db.tables.erase (Text.fold name)).insert (Text.fold target) () } := by
  obtain ⟨-, h⟩ := write_eq_ok.1 h
  split at h
  · cases h
  · split at h
    · cases h
      rfl
    · cases h

theorem dropTable_eq_ok {name : String} {u : Unit} (h : dropTable name db = (.ok u, db')) :
    FailPoint.dropTable ∉ db.failing ∧
      db'.content = { db.content with tables := db.tables.erase (Text.fold name) } := by
  obtain ⟨hp, h⟩ := write_eq_ok.1 h
  cases h
  exact ⟨hp, rfl⟩

theorem dropTable_eq_error {name : String} (h : dropTable name db = (.error s, db')) :
    FailPoint.dropTable ∈ db.failing ∧ db'.content = db.content := by
  rcases write_eq_error.1 h with ⟨hp, -, rfl⟩ | ⟨-, h⟩
  · exact ⟨hp, rfl⟩
  · cases h

theorem storeField_eq_ok {table : String} {i : Nat} {f : Field} {u : Unit}
    (h : storeField table i f db = (.ok u, db')) :
    ∃ c, db.catalog.storeField? table i f = some c ∧
      db'.content = { db.content with catalog := c } := by
  unfold storeField at h
  obtain ⟨-, h⟩ := write_eq_ok.1 h
  split at h
  · cases h
  · split at h
    · rename_i c hc
      cases h
      exact ⟨c, hc, rfl⟩
    · cases h

theorem storeTable_eq_ok {t : Table} {u : Unit} (h : storeTable t db = (.ok u, db')) :
    db' = { db.enter ("STORE TABLE " ++ t.name) with catalog := db.catalog.register t } := by
  obtain ⟨-, h⟩ := write_eq_ok.1 h
  cases h
  rfl

theorem storeExtended_eq_ok {t : Table} {u : Unit} (h : storeExtended t db = (.ok u, db')) :
    db' = { db.enter ("STORE EXTENDED " ++ t.name) with
      catalog := db.catalog.storeExtended t } := by
  unfold storeExtended at h
  split at h
  · cases h
  · cases h
    rfl

end Database

end TableAlteration
