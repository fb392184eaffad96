import TableAlteration.Proofs.Run.Commit
import TableAlteration.Proofs.Sql.CopyStatement
import TableAlteration.Proofs.Sql.CreateStatement

namespace TableAlteration

/-- The statement that fills a table is read as what its plan says. -/
theorem CopyPlan.read?_of_mem_statements {dialect : Sql.Dialect} {plan : CopyPlan} {s : String}
    (h : s ∈ plan.statements dialect) : Sql.CopyStatement.read? dialect s =
      some {
        destination := plan.destination
        columns := plan.columns.map fun c => c.destination
        expressions := plan.columns.map (Sql.Expression.of dialect)
        source := plan.source } := by
  unfold statements at h
  split at h
  · cases h
  · rename_i hplan
    obtain rfl := List.mem_singleton.1 h
    have hcolumns : plan.columns ≠ [] := fun e => hplan (List.isEmpty_iff.2 e)
    rw [Sql.CopyStatement.read?, Sql.reads_insertSelect dialect plan []]
    exact Sql.ofTokens?_planTokens dialect hcolumns

/-- What a database is like after a table was rebuilt under a temporary name. It was asked to create
the temporary table, to copy into it unless the plan is empty, to rename it, and to store the
definition; the first two statements are told by what they are read as. -/
structure Database.Rebuilt (settings : Settings) (table temporary : String) (t : Table)
    (plan : CopyPlan) (db db' : Database) : Prop where
  defined : db'.catalog.table? table = some t
  others : ∀ name, Text.sameName name table = false →
    db'.catalog.table? name = db.catalog.table? name ∧
      db'.catalog.extended? name = db.catalog.extended? name
  tables : db.hasTable table → db'.tables = db.tables
  free : db.IsFree temporary ∧ db'.IsFree temporary
  journal : ∃ create copies, db'.journal = db.journal ++
      (create :: copies ++
        ["RENAME TABLE " ++ temporary ++ " TO " ++ t.name, "STORE TABLE " ++ t.name] ++
        (if settings.storeExtendedSchema then ["STORE EXTENDED " ++ t.name] else [])) ∧
    Sql.createTable? .sqlite { t with name := temporary } = some create ∧
    Sql.createdTable? .sqlite create = some temporary ∧
    copies = (if plan.isEmpty then [] else [Sql.insertSelect db.dialect plan]) ∧
    ∀ s ∈ copies, Sql.CopyStatement.read? db.dialect s =
      some {
        destination := temporary
        columns := plan.columns.map fun c => c.destination
        expressions := plan.columns.map (Sql.Expression.of db.dialect)
        source := t.name }

/-- The temporary name is another one, and nothing but the entry of the table is exchanged. -/
theorem Database.rebuilt_of_eq {settings : Settings} {db db' : Database} {create : String}
    {table temporary : String} {t : Table} {plan : CopyPlan}
    (hcreate : Sql.createTable? .sqlite { t with name := temporary } = some create)
    (hsource : plan.source = t.name) (hdestination : plan.destination = temporary)
    (hname : Text.sameName t.name table) (hknown : (db.catalog.table? table).isSome)
    (hfree : db.IsFree temporary)
    (h : db'.unprobed = db.unprobed.rebuilt settings create plan t) :
    db.Rebuilt settings table temporary t plan db' := by
  have hkey : Text.fold t.name = Text.fold table := Text.sameName_iff.1 hname
  have htables : db'.tables = db.tables.insert (Text.fold table) () := by
    rw [← hkey]
    exact congrArg Database.tables h
  have hcatalog : db'.catalog = if settings.storeExtendedSchema then
      (db.catalog.register t).storeExtended t else db.catalog.register t :=
    congrArg Database.catalog h
  have hjournal : db'.journal = db.journal ++ rebuildStatements settings db.dialect create plan :=
    congrArg Database.journal h
  have hdefined : ∀ name, db'.catalog.table? name =
      if Text.fold name = Text.fold table then some t else db.catalog.table? name := by
    intro name
    rw [hcatalog, ← hkey]
    split <;> exact Catalog.table?_register ..
  have hother : Text.fold temporary ≠ Text.fold table := by
    intro e
    have hno := hfree.2
    rw [Catalog.table?, e] at hno
    rw [Catalog.table?, hno] at hknown
    cases hknown
  refine ⟨?_, fun name hn => ⟨?_, ?_⟩, fun ht => ?_, ⟨hfree, ?_, ?_⟩, create,
    plan.statements db.dialect, ?_, hcreate, Sql.createdTable?_createTable? hcreate, rfl, ?_⟩
  · rw [hdefined, if_pos rfl]
  · rw [hdefined, if_neg (Text.sameName_eq_false_iff.1 hn)]
  · rw [hcatalog]
    split
    · change (db.catalog.extended.insert (Text.fold t.name) t.extendedData).get? _ = _
      rw [Dict.get?_insert, hkey, if_neg (Text.sameName_eq_false_iff.1 hn)]
      rfl
    · rfl
  · have hthere : db.tables.get? (Text.fold table) = some () := by
      obtain ⟨u, hu⟩ := Option.isSome_iff_exists.1 ht
      exact hu
    rw [htables, Dict.insert_of_get?_some hthere]
  · unfold Database.hasTable Dict.contains
    rw [htables, Dict.get?_insert, if_neg hother, hfree.get?_tables]
    rfl
  · rw [hdefined, if_neg hother]
    exact hfree.2
  · rw [hjournal, rebuildStatements, hsource, hdestination]
    simp only [List.append_assoc, List.cons_append, List.nil_append]
  · intro s hs
    rw [CopyPlan.read?_of_mem_statements hs, hsource, hdestination]

namespace Alteration

variable {a : Alteration} {table : String} {w w' : World} {o : Outcome} {t : Table}

theorem commit_rebuild_eq_ok {settings : Settings} {altered : Table} {r : Reduction}
    (h : commit settings table t r .rebuild w = (.ok altered, w')) :
    ∃ d temporary, edited t r.ordered = .ok d ∧ altered = { d.table with name := t.name } ∧
      w.database.IsFree temporary ∧
      w'.database.unprobed = w.database.unprobed.rebuilt settings
        ((Sql.createTable? .sqlite { d.table with name := temporary }).getD "")
        (d.copyPlan w.clock t.name temporary) altered := by
  obtain ⟨d, w1, h1, h⟩ := Run.bind_eq_ok.1 h
  obtain ⟨hd, rfl⟩ := Prod.mk.inj h1
  obtain ⟨u, w2, h2, h⟩ := Run.bind_eq_ok.1 h
  cases h2
  obtain ⟨t', w3, h3, h⟩ := Run.bind_eq_ok.1 h
  obtain ⟨ht, temporary, hfree, hw⟩ := rebuild_eq_ok h3
  cases h
  exact ⟨d, temporary, hd, ht, hfree, hw⟩

/-- After a rebuild the database agrees with what is returned, and nothing else has changed. -/
theorem rebuild_agrees (h : a.execute table .commit w = (.ok o, w'))
    (hs : o.strategy = some .rebuild) (hw : w.database.AnswersFromCatalog)
    (ht : w.database.catalog.table? table = some t) :
    ∃ l r d temporary, planAll a.actions = .ok l ∧ Reduction.of l = .ok r ∧
      edited t r.ordered = .ok d ∧ o.table = some { d.table with name := t.name } ∧
      w.database.Rebuilt a.settings table temporary { d.table with name := t.name }
        (d.copyPlan w.clock t.name temporary) w'.database := by
  obtain ⟨t', l, r, w1, ⟨db, hlookup⟩, hplan, hreduce, hstill, hcases⟩ := execute_steps h
  have ht' := tableSchema_eq_catalog hw hlookup
  rw [ht] at ht'
  cases ht'
  rcases hcases with ⟨hs', rfl, rfl⟩ | ⟨s, altered, hs', rfl, hcommit⟩
  · cases hs'.symm.trans hs
  · cases hs'.symm.trans hs
    obtain ⟨d, temporary, hd, rfl, hfree, hdb⟩ := commit_rebuild_eq_ok hcommit
    have hunprobed := World.unprobed_of_still hstill
    rw [hunprobed, World.clock_of_still hstill] at hdb
    rw [Database.isFree_congr (Database.content_of_unprobed hunprobed)] at hfree
    obtain ⟨create, hcreate⟩ : ∃ create,
        Sql.createTable? .sqlite { d.table with name := temporary } = some create :=
      Sql.createTable?_eq_some (by decide) _
    rw [hcreate] at hdb
    refine ⟨l, r, d, temporary, hplan, hreduce, hd, rfl, ?_⟩
    have hname : Text.sameName t.name table := Catalog.sameName_of_table? ht
    exact Database.rebuilt_of_eq hcreate rfl rfl hname (by rw [ht]; rfl) hfree hdb

end Alteration

/-- Two tables, one of them spelled in mixed case. -/
def mixedCase : World where
  database := (({} : Database).withTable ⟨"Items", [{ name := "a", type := .integer },
    { name := "b", type := .integer }], []⟩).withTable
      ⟨"other", [{ name := "a", type := .text }], []⟩
  clock := newYear
  suffixes := fun _ => 0

def renameFirst : Alteration := { actions := [.rename ⟨1⟩ "a" "c"] }

/-- The statements name the temporary table and the table as the catalog spells it. -/
theorem Alteration.rebuild_agrees_of_mixed_case :
    ∃ o w' d temporary, renameFirst.execute "ITEMS" .commit mixedCase = (.ok o, w') ∧
      o.table = some { Draft.table d with name := "Items" } ∧
      mixedCase.database.Rebuilt {} "ITEMS" temporary { d.table with name := "Items" }
        (d.copyPlan mixedCase.clock "Items" temporary) w'.database ∧
      w'.database.journal = ["CREATE TABLE \"Items_temp0\" ( \"c\" integer, \"b\" integer )",
        "INSERT INTO \"Items_temp0\" (\"c\", \"b\") SELECT \"a\", \"b\" FROM \"Items\"",
        "RENAME TABLE Items_temp0 TO Items", "STORE TABLE Items", "STORE EXTENDED Items"] := by
  have hstrategy : (renameFirst.execute "ITEMS" .commit mixedCase).1.map (·.strategy) =
      .ok (some .rebuild) := by decide +kernel
  obtain ⟨o, ho, hs⟩ := map_eq_ok.1 hstrategy
  have hrun := Run.eq_of_fst ho
  obtain ⟨l, r, d, temporary, -, -, -, htable, hrebuilt⟩ :=
    rebuild_agrees hrun hs ⟨rfl, rfl⟩ rfl
  refine ⟨o, _, d, temporary, hrun, htable, hrebuilt, ?_⟩
  decide +kernel

end TableAlteration
