import TableAlteration.Proofs.Edit.InPlace
import TableAlteration.Proofs.Run.Preparation
import TableAlteration.Proofs.Store.Catalog
import TableAlteration.Run.Alteration

namespace TableAlteration

section Requests

variable {settings : Settings} {w w' : World} {table temporary : String} {d : Draft}

theorem storeFields_eq_ok {l : List (Nat × Field)} {u : Unit}
    (h : storeFields table l w = (.ok u, w')) :
    ∃ c, w.database.catalog.storeFields? table l = some c ∧
      w'.database.content = { w.database.content with catalog := c } := by
  induction l generalizing w with
  | nil =>
    cases h
    exact ⟨_, rfl, rfl⟩
  | cons x rest ih =>
    obtain ⟨u1, w1, h1, h⟩ := Run.bind_eq_ok.1 h
    obtain ⟨db, hdb, rfl⟩ := Run.ask_eq_ok.1 h1
    obtain ⟨c1, hc1, hw1⟩ := Database.storeField_eq_ok hdb
    obtain ⟨c, hc, hw⟩ := ih h
    have hcatalog : db.catalog = c1 := congrArg Database.catalog hw1
    rw [hcatalog] at hc
    rw [hw1] at hw
    exact ⟨c, Option.bind_eq_some_iff.2 ⟨c1, hc1, hc⟩, hw⟩

theorem storeExtended_eq_ok {t : Table} {u : Unit} (h : storeExtended settings t w = (.ok u, w')) :
    w'.database = if settings.storeExtendedSchema then
        { w.database.enter ("STORE EXTENDED " ++ t.name) with
          catalog := w.database.catalog.storeExtended t }
      else w.database := by
  unfold storeExtended at h
  split at h
  · rename_i hs
    obtain ⟨db, hdb, rfl⟩ := Run.ask_eq_ok.1 h
    rw [if_pos hs]
    exact Database.storeExtended_eq_ok hdb
  · rename_i hs
    cases h
    rw [if_neg hs]

theorem storeExtended_content {t : Table} {u : Unit}
    (h : storeExtended settings t w = (.ok u, w')) :
    w'.database.content = { w.database.content with
      catalog := if settings.storeExtendedSchema then w.database.catalog.storeExtended t
        else w.database.catalog } := by
  rw [storeExtended_eq_ok h]
  split <;> rfl

/-- The catalog after a definition was edited in place. -/
theorem updateInPlace_eq_ok {needs : Requirements} {t : Table}
    (h : updateInPlace settings d needs w = (.ok t, w')) :
    t = d.table ∧ ∃ c, w.database.catalog.storeFields? d.name d.staleFields = some c ∧
      w'.database.content = { w.database.content with
        catalog := if needs.extended && settings.storeExtendedSchema then c.storeExtended d.table
          else c } := by
  obtain ⟨u, w1, h1, h⟩ := Run.bind_eq_ok.1 h
  obtain ⟨c, hc, hw1⟩ := storeFields_eq_ok h1
  have hcatalog : w1.database.catalog = c := congrArg Database.catalog hw1
  split at h
  · rename_i hn
    obtain ⟨u', w2, h2, h⟩ := Run.bind_eq_ok.1 h
    have hw2 := storeExtended_content h2
    rw [hw1, hcatalog] at hw2
    cases h
    refine ⟨rfl, c, hc, ?_⟩
    rw [hn, Bool.true_and]
    exact hw2
  · rename_i hn
    cases h
    refine ⟨rfl, c, hc, ?_⟩
    rw [if_neg (by simp [hn])]
    exact hw1

/-- What is asked for to fill a new table. -/
def CopyPlan.statements (dialect : Sql.Dialect) (plan : CopyPlan) : List String :=
  if plan.isEmpty then [] else [Sql.insertSelect dialect plan]

theorem copyData_eq_ok {plan : CopyPlan} {u : Unit} (h : copyData temporary plan w = (.ok u, w')) :
    w'.database = w.database.enterAll (plan.statements w.database.dialect) := by
  unfold copyData at h
  unfold CopyPlan.statements
  split at h
  · rename_i he
    cases h
    rw [if_pos he]
    exact (Database.enterAll_nil w.database).symm
  · rename_i he
    obtain ⟨db, w1, h1, h⟩ := Run.bind_eq_ok.1 h
    cases h1
    obtain ⟨u1, w2, h2, h⟩ := Run.bind_eq_ok.1 h
    cases h2
    obtain ⟨n, w3, h3, h⟩ := Run.bind_eq_ok.1 h
    cases h
    obtain ⟨db', hdb, rfl⟩ := Run.ask_eq_ok.1 h3
    rw [if_neg he]
    exact Database.execute_eq_ok hdb

theorem copyAndSwap_eq_ok {u : Unit} (h : copyAndSwap table temporary d w = (.ok u, w')) :
    w'.database = { w.database.enterAll
        ((d.copyPlan w.clock table temporary).statements w.database.dialect ++
          ["RENAME TABLE " ++ temporary ++ " TO " ++ table]) with
      tables := (w.database.tables.erase (Text.fold temporary)).insert (Text.fold table) () } := by
  obtain ⟨clock, w1, h1, h⟩ := Run.bind_eq_ok.1 h
  cases h1
  obtain ⟨u1, w2, h2, h⟩ := Run.bind_eq_ok.1 h
  have hw2 := copyData_eq_ok h2
  obtain ⟨u2, w3, h3, h⟩ := Run.bind_eq_ok.1 h
  cases h3
  obtain ⟨u3, w4, h4, h⟩ := Run.bind_eq_ok.1 h
  cases h
  obtain ⟨db, hdb, rfl⟩ := Run.ask_eq_ok.1 h4
  have hw3 : ∀ e, (w2.note e).database = w.database.enterAll _ := fun _ => hw2
  have hrename := Database.renameTable_eq_ok hdb
  rw [hw3] at hrename
  change db = _
  rw [hrename, Database.enterAll_append]
  rfl

/-- What is asked for in a rebuild; the plan leads from the table to the temporary one. -/
def rebuildStatements (settings : Settings) (dialect : Sql.Dialect) (create : String)
    (plan : CopyPlan) : List String :=
  [create] ++
    (plan.statements dialect ++ ["RENAME TABLE " ++ plan.destination ++ " TO " ++ plan.source]) ++
    ["STORE TABLE " ++ plan.source] ++
    (if settings.storeExtendedSchema then ["STORE EXTENDED " ++ plan.source] else [])

/-- The database after a rebuild. -/
def Database.rebuilt (settings : Settings) (create : String) (plan : CopyPlan) (t : Table)
    (db : Database) : Database :=
  { db.enterAll (rebuildStatements settings db.dialect create plan) with
    tables := db.tables.insert (Text.fold t.name) ()
    catalog := if settings.storeExtendedSchema then (db.catalog.register t).storeExtended t
      else db.catalog.register t }

theorem rebuild_eq_ok {t : Table} (h : rebuild settings table d w = (.ok t, w')) :
    t = { d.table with name := table } ∧ ∃ temporary, w.database.IsFree temporary ∧
      w'.database.unprobed = w.database.unprobed.rebuilt settings
        ((Sql.createTable? .sqlite { d.table with name := temporary }).getD "")
        (d.copyPlan w.clock table temporary) t := by
  obtain ⟨temporary, w1, h1, h⟩ := Run.bind_eq_ok.1 h
  obtain ⟨hfree, -⟩ := freeName_eq_ok h1
  have hstill := (freeName_preliminary settings table).still_eq h1
  obtain ⟨u, w2, h2, h⟩ := Run.bind_eq_ok.1 h
  obtain ⟨db2, hdb2, rfl⟩ := Run.ask_eq_ok.1 h2
  have hcreate := Database.createTable_eq_ok hdb2
  obtain ⟨u3, w3, h3, h⟩ := Run.bind_eq_ok.1 h
  cases h3
  obtain ⟨u4, w4, h4, h⟩ := Run.bind_eq_ok.1 h
  have hswap := copyAndSwap_eq_ok (Run.orCleanUp_eq_ok.1 h4)
  obtain ⟨u5, w5, h5, h⟩ := Run.bind_eq_ok.1 h
  obtain ⟨db5, hdb5, rfl⟩ := Run.ask_eq_ok.1 h5
  have hstore := Database.storeTable_eq_ok hdb5
  obtain ⟨u6, w6, h6, h⟩ := Run.bind_eq_ok.1 h
  have hextended := storeExtended_eq_ok h6
  cases h
  refine ⟨rfl, temporary, hfree, ?_⟩
  -- the temporary name comes and goes
  have htables : (w1.database.tables.insert (Text.fold temporary) ()).erase
      (Text.fold temporary) = w1.database.tables := by
    have hfree1 := (Database.isFree_congr
      (Database.content_of_unprobed (World.unprobed_of_still hstill))).2 hfree
    exact Dict.erase_insert_of_get?_none () hfree1.get?_tables
  have hswap : w4.database = { db2.enterAll
        ((d.copyPlan w1.clock table temporary).statements db2.dialect ++
          ["RENAME TABLE " ++ temporary ++ " TO " ++ table]) with
      tables := (db2.tables.erase (Text.fold temporary)).insert (Text.fold table) () } := hswap
  have hextended : w6.database = if settings.storeExtendedSchema then
        { db5.enter ("STORE EXTENDED " ++ table) with
          catalog := db5.catalog.storeExtended { d.table with name := table } }
      else db5 := hextended
  have hresult : w6.database = w1.database.rebuilt settings
      ((Sql.createTable? .sqlite { d.table with name := temporary }).getD "")
      (d.copyPlan w1.clock table temporary) { d.table with name := table } := by
    rw [hextended, hstore, hswap, hcreate, htables, Database.rebuilt, rebuildStatements]
    split
    · simp only [Database.enterAll_append]
      rfl
    · simp only [Database.enterAll_append, Database.enterAll_nil]
      rfl
  have hdb := World.unprobed_of_still hstill
  rw [World.clock_of_still hstill] at hresult
  change w6.database.unprobed = _
  rw [hresult, ← hdb]
  rfl

end Requests

/-- What a successful commit makes of the database, its physical tables left out. -/
inductive Commits (settings : Settings) (t : Table) (r : Reduction) (db : Database) :
    Outcome → Database → Prop where
  | idle {o db'} : o.strategy = none → o.table = some t →
      db'.withoutTables = db.withoutTables → Commits settings t r db o db'
  | inPlace {o db' d c} : o.strategy = some .inPlace → Alteration.edited t r.ordered = .ok d →
      o.table = some d.table → db.catalog.storeFields? d.name d.staleFields = some c →
      db'.withoutTables = { db.withoutTables with
        catalog := if r.requirements.extended && settings.storeExtendedSchema then
            c.storeExtended d.table
          else c } → Commits settings t r db o db'
  | rebuild {o db' d} : o.strategy = some .rebuild → Alteration.edited t r.ordered = .ok d →
      o.table = some { d.table with name := t.name } →
      db'.withoutTables = { db.withoutTables with
        catalog := if settings.storeExtendedSchema then
            (db.catalog.register { d.table with name := t.name }).storeExtended
              { d.table with name := t.name }
          else db.catalog.register { d.table with name := t.name } } → Commits settings t r db o db'

/-- No tables are made up in look-ups: the catalog has what is found. -/
def Database.AnswersFromCatalog (db : Database) : Prop :=
  db.occupiedFirst = 0 ∧ db.knownFirst = 0

theorem tableSchema_eq_catalog {db db' : Database} {name : String} {found : Option Table}
    (hdb : db.AnswersFromCatalog)
    (h : Database.tableSchema name db = (.ok found, db')) : found = db.catalog.table? name := by
  unfold Database.tableSchema at h
  split at h
  · rename_i hp
    have hlen : ¬ db.probed.length ≤ db.occupiedFirst + db.knownFirst := by
      rw [hdb.1, hdb.2]
      cases hprobed : db.probed with
      | nil => simp [hprobed] at hp
      | cons => simp
    split at h
    · cases h
    · cases h
      rfl
  · split at h
    · cases h
    · cases h
      rfl

namespace Commits

variable {settings : Settings} {t : Table} {r : Reduction} {db db1 db' : Database} {o : Outcome}

theorem of_content (hc : db1.content = db.content) (h : Commits settings t r db1 o db') :
    Commits settings t r db o db' := by
  have hw : db1.withoutTables = db.withoutTables := Database.withoutTables_of_content hc
  have hcat := Database.catalog_of_content hc
  cases h with
  | idle hs ht hdb => exact .idle hs ht (hdb.trans hw)
  | inPlace hs hd ht hf hdb =>
    rw [hcat] at hf
    rw [hw] at hdb
    exact .inPlace hs hd ht hf hdb
  | rebuild hs hd ht hdb =>
    rw [hw, hcat] at hdb
    exact .rebuild hs hd ht hdb

end Commits

namespace Alteration

variable {a : Alteration} {table : String} {w w' : World} {o : Outcome}

theorem edited_eq_ok {t : Table} {l : List Planned} {d : Draft}
    (h : edited t l = .ok d) : ∃ d0, (Draft.of t).applyAll l = .ok d0 ∧
      d0.table.NamesDistinct ∧ d = { d0 with indexes := d0.finalIndexes } := by
  obtain ⟨d0, h0, h⟩ := bind_eq_ok.1 h
  exact ⟨d0, h0, Draft.finish_eq_ok.1 h⟩

/-- Without a rebuild the edited definition has the fields of the old one, which may be moved. -/
theorem sameTags_of_edited {t : Table} {l : List Planned} {d : Draft}
    (hl : ∀ p ∈ l, p.action.KeepsNames) (h : edited t l = .ok d) :
    d.table.NamesDistinct ∧ Draft.SameTags (Draft.of t) d := by
  obtain ⟨d0, h0, hn, rfl⟩ := edited_eq_ok h
  have htags := Draft.sameTags_of_applyAll hl h0
  exact ⟨hn, htags.name, htags.perm, htags.still⟩

/-- A table is opened in a database that can be altered. -/
theorem openTable_eq_ok {t : Table} (h : openTable table w = (.ok t, w')) :
    w.database.readOnly = false ∧ w.database.inUse ∧
      ∃ db, Database.tableSchema table w.database = (.ok (some t), db) := by
  obtain ⟨db, w1, h1, h⟩ := Run.bind_eq_ok.1 h
  cases h1
  split at h
  · cases h
  · rename_i hwritable
    split at h
    · cases h
    · rename_i huse
      obtain ⟨found, w2, h2, h⟩ := Run.bind_eq_ok.1 h
      obtain ⟨db2, hdb2, rfl⟩ := Run.ask_eq_ok.1 h2
      cases found with
      | none => cases h
      | some t' =>
        cases h
        exact ⟨by simpa using hwritable, by simpa using huse, db2, hdb2⟩

theorem plan_eq_ok {l : List Planned} (h : a.plan w = (.ok l, w')) : planAll a.actions = .ok l := by
  obtain ⟨u, w1, h1, h⟩ := Run.bind_eq_ok.1 h
  obtain ⟨u', w2, h2, h⟩ := Run.bind_eq_ok.1 h
  exact (Prod.mk.inj h).1

theorem reduce_eq_ok {l : List Planned} {r : Reduction} (h : reduce table l w = (.ok r, w')) :
    Reduction.of l = .ok r := by
  obtain ⟨u, w1, h1, h⟩ := Run.bind_eq_ok.1 h
  obtain ⟨r', w2, h2, h⟩ := Run.bind_eq_ok.1 h
  cases h
  exact (Prod.mk.inj h2).1

theorem commit_eq_ok {settings : Settings} {t altered : Table} {r : Reduction} {s : Strategy}
    (h : commit settings table t r s w = (.ok altered, w')) (ho : o.strategy = some s)
    (ht : o.table = some altered) : Commits settings t r w.database o w'.database := by
  obtain ⟨d, w1, h1, h⟩ := Run.bind_eq_ok.1 h
  obtain ⟨hd, rfl⟩ := Prod.mk.inj h1
  obtain ⟨u, w2, h2, h⟩ := Run.bind_eq_ok.1 h
  cases h2
  cases s with
  | rebuild =>
    obtain ⟨t', w3, h3, h⟩ := Run.bind_eq_ok.1 h
    obtain ⟨rfl, temporary, -, hw⟩ := rebuild_eq_ok h3
    cases h
    exact .rebuild ho hd ht
      (congrArg (fun db : Database => { db with journal := [], writes := 0, tables := ∅ }) hw)
  | inPlace =>
    obtain ⟨t', w3, h3, h⟩ := Run.bind_eq_ok.1 h
    obtain ⟨rfl, c, hc, hw⟩ := updateInPlace_eq_ok h3
    cases h
    exact .inPlace ho hd ht hc (congrArg (fun d : Database => { d with tables := ∅ }) hw)

theorem prepare_eq_ok {x : Preparation} (h : a.prepare table w = (.ok x, w')) :
    (∃ db, Database.tableSchema table w.database = (.ok (some x.table), db)) ∧
      planAll a.actions = .ok x.submitted ∧ Reduction.of x.submitted = .ok x.reduction := by
  obtain ⟨u, w1, h1, h⟩ := Run.bind_eq_ok.1 h
  cases h1
  obtain ⟨t, w2, h2, h⟩ := Run.bind_eq_ok.1 h
  obtain ⟨l, w3, h3, h⟩ := Run.bind_eq_ok.1 h
  obtain ⟨r, w4, h4, h⟩ := Run.bind_eq_ok.1 h
  cases h
  obtain ⟨-, -, hlookup⟩ := openTable_eq_ok h2
  exact ⟨hlookup, plan_eq_ok h3, reduce_eq_ok h4⟩

/-- What comes before a commit writes nothing, and without a need nothing is committed. -/
theorem execute_steps (h : a.execute table .commit w = (.ok o, w')) :
    ∃ t l r w1, (∃ db, Database.tableSchema table w.database = (.ok (some t), db)) ∧
      planAll a.actions = .ok l ∧ Reduction.of l = .ok r ∧ w1.still = w.still ∧
      (Strategy.for? r.requirements = none ∧ o = Outcome.planned t l r ∧ w' = w1 ∨
        ∃ s altered, Strategy.for? r.requirements = some s ∧
          o = { Outcome.planned t l r with table := some altered } ∧
          commit a.settings table t r s w1 = (.ok altered, w')) := by
  have h := Run.orCleanUp_eq_ok.1 h
  rw [run_commit] at h
  obtain ⟨⟨t, l, r⟩, w1, h1, h⟩ := Run.bind_eq_ok.1 h
  obtain ⟨hlookup, hplan, hreduce⟩ := prepare_eq_ok h1
  refine ⟨t, l, r, w1, hlookup, hplan, hreduce, (prepare_preliminary a table).still_eq h1, ?_⟩
  dsimp only [proceed] at h
  cases hs : Strategy.for? r.requirements with
  | none =>
    rw [hs] at h
    cases h
    exact .inl ⟨rfl, rfl, rfl⟩
  | some s =>
    rw [hs] at h
    obtain ⟨altered, w2, h2, h⟩ := Run.bind_eq_ok.1 h
    cases h
    exact .inr ⟨s, altered, rfl, rfl, h2⟩

theorem execute_eq_ok (h : a.execute table .commit w = (.ok o, w')) :
    ∃ t l r, (∃ db, Database.tableSchema table w.database = (.ok (some t), db)) ∧
      planAll a.actions = .ok l ∧ Reduction.of l = .ok r ∧
      o.strategy = Strategy.for? r.requirements ∧
      Commits a.settings t r w.database o w'.database := by
  obtain ⟨t, l, r, w1, hlookup, hplan, hreduce, hstill, hcases⟩ := execute_steps h
  have hc := Database.content_of_unprobed (World.unprobed_of_still hstill)
  rcases hcases with ⟨hs, rfl, rfl⟩ | ⟨s, altered, hs, rfl, hcommit⟩
  · exact ⟨t, l, r, hlookup, hplan, hreduce, rfl, .of_content hc (.idle hs rfl rfl)⟩
  · exact ⟨t, l, r, hlookup, hplan, hreduce, rfl, .of_content hc (commit_eq_ok hcommit hs rfl)⟩

end Alteration

end TableAlteration
