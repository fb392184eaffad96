import TableAlteration.Proofs.Run.Commit

namespace TableAlteration

/-- The failure of the request that creates, fills or renames the temporary table. -/
inductive RebuildFailure (db : Database) (temporary : String) : AlterError → Prop where
  | create (sql : String) : FailPoint.createTable ∈ db.failing →
      RebuildFailure db temporary
        (.physicalCreateFailed temporary (.query sql FailPoint.createTable.message))
  | copy (sql : String) : FailPoint.execute ∈ db.failing →
      RebuildFailure db temporary
        (.dataCopyFailed temporary sql (.query sql FailPoint.execute.message))
  | swap (table sql : String) : FailPoint.renameTable ∈ db.failing →
      RebuildFailure db temporary
        (.swapFailed temporary table (.query sql FailPoint.renameTable.message))

section Steps

variable {w w' : World} {e : AlterError} {table temporary : String} {settings : Settings}
  {d : Draft}

theorem RebuildFailure.congr {db db' : Database} (hf : db'.failing = db.failing)
    (h : RebuildFailure db' temporary e) : RebuildFailure db temporary e := by
  cases h with
  | create sql h => exact .create sql (hf ▸ h)
  | copy sql h => exact .copy sql (hf ▸ h)
  | swap table sql h => exact .swap table sql (hf ▸ h)

theorem copyData_eq_error {plan : CopyPlan} (h : copyData temporary plan w = (.error e, w')) :
    RebuildFailure w.database temporary e ∧ w'.database.content = w.database.content := by
  unfold copyData at h
  split at h
  · cases h
  · rcases Run.bind_eq_error.1 h with h1 | ⟨db, w1, h1, h⟩
    · cases h1
    cases h1
    rcases Run.bind_eq_error.1 h with h2 | ⟨u, w2, h2, h⟩
    · cases h2
    cases h2
    rcases Run.bind_eq_error.1 h with h3 | ⟨n, w3, h3, h⟩
    · obtain ⟨s, db', hdb, rfl, rfl⟩ := Run.ask_eq_error.1 h3
      obtain ⟨hp, rfl, hc⟩ := Database.execute_eq_error hdb
      exact ⟨.copy _ hp, hc⟩
    · cases h

theorem copyAndSwap_eq_error (ht : w.database.hasTable temporary)
    (h : copyAndSwap table temporary d w = (.error e, w')) :
    RebuildFailure w.database temporary e ∧ w'.database.content = w.database.content := by
  rcases Run.bind_eq_error.1 h with h1 | ⟨clock, w1, h1, h⟩
  · cases h1
  cases h1
  rcases Run.bind_eq_error.1 h with h2 | ⟨u, w2, h2, h⟩
  · exact copyData_eq_error h2
  have hc : w2.database.content = w.database.content := by
    rw [copyData_eq_ok h2]
    rfl
  rcases Run.bind_eq_error.1 h with h3 | ⟨u', w3, h3, h⟩
  · cases h3
  cases h3
  rcases Run.bind_eq_error.1 h with h4 | ⟨u'', w4, h4, h⟩
  · obtain ⟨s, db, hdb, rfl, rfl⟩ := Run.ask_eq_error.1 h4
    have ht' : w2.database.hasTable temporary := by
      unfold Database.hasTable at ht ⊢
      rwa [Database.tables_of_content hc]
    obtain ⟨hp, ⟨sql, rfl⟩, hc'⟩ := Database.renameTable_eq_error ht' hdb
    exact ⟨.swap table sql (Database.failing_of_content hc ▸ hp), hc'.trans hc⟩
  · cases h

/-- Dropping the temporary table never fails the run. -/
theorem dropTemporary_content (temporary : String) (w : World) :
    (dropTemporary temporary w).2.database.content =
      if FailPoint.dropTable ∈ w.database.failing then w.database.content
      else { w.database.content with
        tables := w.database.tables.erase (Text.fold temporary) } := by
  unfold dropTemporary
  split
  · rename_i db h
    obtain ⟨hp, hc⟩ := Database.dropTable_eq_ok h
    rw [if_neg hp]
    exact hc
  · rename_i s db h
    obtain ⟨hp, hc⟩ := Database.dropTable_eq_error h
    rw [if_pos hp]
    exact hc

theorem storeExtended_eq_error {t : Table} (h : storeExtended settings t w = (.error e, w')) :
    e.isRebuildFailure = false := by
  unfold storeExtended at h
  split at h
  · obtain ⟨s, db, -, rfl, -⟩ := Run.ask_eq_error.1 h
    rfl
  · cases h

theorem storeFields_eq_error {l : List (Nat × Field)}
    (h : storeFields table l w = (.error e, w')) : e.isRebuildFailure = false := by
  induction l generalizing w with
  | nil => cases h
  | cons x rest ih =>
    rcases Run.bind_eq_error.1 h with h1 | ⟨u, w1, -, h⟩
    · obtain ⟨s, db, -, rfl, -⟩ := Run.ask_eq_error.1 h1
      rfl
    · exact ih h

theorem updateInPlace_eq_error {needs : Requirements}
    (h : updateInPlace settings d needs w = (.error e, w')) : e.isRebuildFailure = false := by
  rcases Run.bind_eq_error.1 h with h1 | ⟨u, w1, -, h⟩
  · exact storeFields_eq_error h1
  split at h
  · rcases Run.bind_eq_error.1 h with h2 | ⟨u', w2, -, h⟩
    · exact storeExtended_eq_error h2
    · cases h
  · cases h

/-- What a failed rebuild leaves behind. -/
def LeftOver (db db' : Database) (temporary : String) : Prop :=
  db'.content = db.content ∨ FailPoint.dropTable ∈ db.failing ∧
    db'.content = { db.content with tables := db.tables.insert (Text.fold temporary) () }

/-- The temporary table is dropped or left over. -/
theorem leftOver_of_created {db : Database} (hfree : db.hasTable temporary = false)
    (hc : w.database.content =
      { db.content with tables := db.tables.insert (Text.fold temporary) () }) :
    LeftOver db (dropTemporary temporary w).2.database temporary := by
  have hfailing : w.database.failing = db.failing := by
    have h' := congrArg Database.failing hc
    exact h'
  have htables : w.database.tables = db.tables.insert (Text.fold temporary) () := by
    have h' := congrArg Database.tables hc
    exact h'
  unfold LeftOver
  rw [dropTemporary_content, hfailing]
  split
  · rename_i hp
    exact .inr ⟨hp, hc⟩
  · left
    rw [htables, hc, Dict.erase_insert_of_get?_none]
    · rfl
    · unfold Database.hasTable Dict.contains at hfree
      simpa using hfree

theorem rebuild_eq_error (h : rebuild settings table d w = (.error e, w'))
    (he : e.isRebuildFailure) :
    ∃ temporary, w.database.IsFree temporary ∧
      (∃ i, temporary = temporaryName table settings.tempNameInfix (w.suffixes i)) ∧
      RebuildFailure w.database temporary e ∧ LeftOver w.database w'.database temporary := by
  obtain ⟨temporary, w1, h1, hc1, hs1, h⟩ :=
    (freeName_preliminary settings table).of_bind_error h he
  obtain ⟨hfree, hname⟩ := freeName_eq_ok h1
  have hfailing := Database.failing_of_content hc1
  have htables := Database.tables_of_content hc1
  refine ⟨temporary, hfree, hname, ?_⟩
  rcases Run.bind_eq_error.1 h with h2 | ⟨u, w2, h2, h⟩
  · obtain ⟨s, db, hdb, rfl, rfl⟩ := Run.ask_eq_error.1 h2
    obtain ⟨hp, ⟨sql, rfl⟩, hc⟩ := Database.createTable_eq_error hdb
    exact ⟨.create sql (hfailing ▸ hp), .inl (hc.trans hc1)⟩
  obtain ⟨db, hdb, rfl⟩ := Run.ask_eq_ok.1 h2
  have hc2 : db.content = { w1.database.content with
      tables := w1.database.tables.insert (Text.fold temporary) () } := by
    rw [Database.createTable_eq_ok hdb]
    rfl
  rw [hc1, htables] at hc2
  rcases Run.bind_eq_error.1 h with h3 | ⟨u', w3, h3, h⟩
  · cases h3
  cases h3
  rcases Run.bind_eq_error.1 h with h4 | ⟨u'', w4, h4, h⟩
  · obtain ⟨w5, h5, rfl⟩ := Run.orCleanUp_eq_error.1 h4
    have ht : db.hasTable temporary := by
      have hcreated : db.tables = w.database.tables.insert (Text.fold temporary) () := by
        have h' := congrArg Database.tables hc2
        exact h'
      unfold Database.hasTable Dict.contains
      rw [hcreated, Dict.get?_insert_self]
      rfl
    obtain ⟨hfail, hc5⟩ := copyAndSwap_eq_error ht h5
    have hf : db.failing = w.database.failing := by
      have h' := congrArg Database.failing hc2
      exact h'
    have hc5 : w5.database.content = db.content := hc5
    exact ⟨hfail.congr hf, leftOver_of_created hfree.1 (hc5.trans hc2)⟩
  -- behind the swap only the catalog is written, and its failures are none of a rebuild
  rcases Run.bind_eq_error.1 h with h5 | ⟨u3, w5, h5, h⟩
  · obtain ⟨s, db', -, rfl, -⟩ := Run.ask_eq_error.1 h5
    cases he
  rcases Run.bind_eq_error.1 h with h6 | ⟨v, w6, h6, h⟩
  · rw [storeExtended_eq_error h6] at he
    cases he
  rcases Run.bind_eq_error.1 h with h7 | ⟨v', w7, h7, h⟩
  · cases h7
  · cases h

end Steps

namespace Alteration

variable {w w' : World} {e : AlterError} {table : String} {settings : Settings}

theorem commit_eq_error {t : Table} {r : Reduction} {s : Strategy}
    (h : commit settings table t r s w = (.error e, w')) (he : e.isRebuildFailure) :
    ∃ temporary, w.database.IsFree temporary ∧
      (∃ i, temporary = temporaryName t.name settings.tempNameInfix (w.suffixes i)) ∧
      RebuildFailure w.database temporary e ∧ LeftOver w.database w'.database temporary := by
  obtain ⟨d, w1, h1, -, -, h⟩ :=
    (Run.Preliminary.lift (edited_noRebuild t r.ordered)).of_bind_error h he
  obtain ⟨-, rfl⟩ := Prod.mk.inj h1
  obtain ⟨u, w2, h2, -, -, h⟩ := (enterStage_preliminary table .schemaMutated).of_bind_error h he
  cases h2
  cases s with
  | rebuild =>
    rcases Run.bind_eq_error.1 h with h3 | ⟨altered, w3, h3, h⟩
    · have hfail := rebuild_eq_error h3 he
      exact hfail
    · cases h
  | inPlace =>
    rcases Run.bind_eq_error.1 h with h3 | ⟨altered, w3, h3, h⟩
    · rw [updateInPlace_eq_error h3] at he
      cases he
    · cases h

theorem run_eq_error {a : Alteration} (h : a.run table .commit w = (.error e, w'))
    (he : e.isRebuildFailure) :
    ∃ t temporary, w.database.IsFree temporary ∧
      (∃ i, temporary = temporaryName t a.settings.tempNameInfix (w.suffixes i)) ∧
      RebuildFailure w.database temporary e ∧ LeftOver w.database w'.database temporary := by
  rw [run_commit] at h
  obtain ⟨x, w1, h1, hc, hs, h⟩ := (prepare_preliminary a table).of_bind_error h he
  dsimp only [proceed] at h
  cases hst : Strategy.for? x.reduction.requirements with
  | none =>
    rw [hst] at h
    cases h
  | some s =>
    rw [hst] at h
    rcases Run.bind_eq_error.1 h with h2 | ⟨altered, w2, h2, h⟩
    · obtain ⟨temporary, hfree, ⟨i, hi⟩, hfail, hleft⟩ := commit_eq_error h2 he
      rw [hs] at hi
      refine ⟨x.table.name, temporary, (Database.isFree_congr hc).1 hfree, ⟨i, hi⟩,
        hfail.congr (Database.failing_of_content hc), ?_⟩
      unfold LeftOver at hleft ⊢
      rwa [hc, Database.failing_of_content hc, Database.tables_of_content hc] at hleft
    · cases h

/-- A rebuild that fails before the table is replaced changes nothing in the catalog and in the
physical tables; if the temporary table cannot be dropped, it is all that is left over. The failure
is that of the request that creates, fills or renames the temporary table, whose name was free. -/
theorem failed_rebuild_is_atomic {a : Alteration} (h : a.execute table .commit w = (.error e, w'))
    (he : e.isRebuildFailure) :
    w'.database.catalog = w.database.catalog ∧
      (FailPoint.dropTable ∉ w.database.failing → w'.database.tables = w.database.tables) ∧
      ∃ temporary, w.database.IsFree temporary ∧
        (∃ t i, temporary = temporaryName t a.settings.tempNameInfix (w.suffixes i)) ∧
        RebuildFailure w.database temporary e ∧
        (w'.database.tables = w.database.tables ∨
          w'.database.tables = w.database.tables.insert (Text.fold temporary) ()) := by
  obtain ⟨w1, h1, rfl⟩ := Run.orCleanUp_eq_error.1 h
  obtain ⟨t, temporary, hfree, ⟨i, hi⟩, hfail, hleft⟩ := run_eq_error h1 he
  rcases hleft with hc | ⟨hp, hc⟩
  · have hc' : w1.database.tables = w.database.tables := Database.tables_of_content hc
    exact ⟨Database.catalog_of_content hc, fun _ => hc',
      temporary, hfree, ⟨t, i, hi⟩, hfail, .inl hc'⟩
  · have hcatalog := congrArg Database.catalog hc
    have htables := congrArg Database.tables hc
    exact ⟨hcatalog, fun hn => absurd hp hn, temporary, hfree, ⟨t, i, hi⟩, hfail, .inr htables⟩

/-- A database that can neither copy data nor drop a table. -/
def stuckWorld : World where
  database := ({ failing := [.execute, .dropTable] } : Database).withTable
    ⟨"t", [{ name := "a", type := .byte }], []⟩
  clock := newYear
  suffixes := fun _ => 7

theorem failed_rebuild_is_atomic_when_stuck :
    ∃ w' sql, execute { actions := [.insert ⟨0⟩ 0 { name := "b", type := .byte }] } "t" .commit
        stuckWorld =
          (.error (.dataCopyFailed "t_temp7" sql (.query sql FailPoint.execute.message)), w') ∧
      w'.database.catalog = stuckWorld.database.catalog ∧
      ∃ temporary, stuckWorld.database.IsFree temporary ∧
        (w'.database.tables = stuckWorld.database.tables ∨
          w'.database.tables = stuckWorld.database.tables.insert (Text.fold temporary) ()) := by
  obtain ⟨sql, h⟩ : ∃ sql, (execute { actions := [.insert ⟨0⟩ 0 { name := "b", type := .byte }] }
      "t" .commit stuckWorld).1 =
        .error (.dataCopyFailed "t_temp7" sql (.query sql FailPoint.execute.message)) := ⟨_, rfl⟩
  have hrun := Run.eq_of_fst h
  obtain ⟨hcatalog, -, temporary, hfree, -, -, htables⟩ := failed_rebuild_is_atomic hrun rfl
  exact ⟨_, sql, hrun, hcatalog, temporary, hfree, htables⟩

end Alteration

end TableAlteration
