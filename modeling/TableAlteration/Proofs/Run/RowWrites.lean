import TableAlteration.Proofs.Edit.Bindings
import TableAlteration.Proofs.Run.Interrupted

namespace TableAlteration

/-- The journal entry of a row that is stored at a position. -/
def fieldStatement (table : String) (x : Nat × Field) : String :=
  "STORE FIELD " ++ table ++ "." ++ x.2.name ++ " AT " ++ toString x.1

section Journal

variable {settings : Settings} {w w' : World} {table : String} {d : Draft} {u : Unit}

theorem Database.storeField_journal {db db' : Database} {i : Nat} {f : Field}
    (h : Database.storeField table i f db = (.ok u, db')) :
    db'.journal = db.journal ++ [fieldStatement table (i, f)] := by
  unfold Database.storeField at h
  obtain ⟨-, h⟩ := write_eq_ok.1 h
  split at h
  · cases h
  · split at h
    · cases h
      rfl
    · cases h

theorem storeFields_journal {l : List (Nat × Field)} (h : storeFields table l w = (.ok u, w')) :
    w'.database.journal = w.database.journal ++ l.map (fieldStatement table) := by
  induction l generalizing w with
  | nil =>
    cases h
    exact (List.append_nil _).symm
  | cons x rest ih =>
    obtain ⟨u1, w1, h1, h⟩ := Run.bind_eq_ok.1 h
    obtain ⟨db, hdb, rfl⟩ := Run.ask_eq_ok.1 h1
    have hfirst := Database.storeField_journal hdb
    rw [ih h]
    change db.journal ++ _ = _
    rw [hfirst, List.map_cons, List.append_assoc, List.singleton_append]

/-- What is asked for to edit a definition in place. -/
def inPlaceStatements (settings : Settings) (needs : Requirements) (table : String)
    (written : List (Nat × Field)) : List String :=
  written.map (fieldStatement table) ++
    if needs.extended && settings.storeExtendedSchema then ["STORE EXTENDED " ++ table] else []

theorem storeExtended_journal {t : Table} (h : storeExtended settings t w = (.ok u, w')) :
    w'.database.journal = w.database.journal ++
      if settings.storeExtendedSchema then ["STORE EXTENDED " ++ t.name] else [] := by
  rw [storeExtended_eq_ok h]
  split
  · rfl
  · exact (List.append_nil _).symm

theorem updateInPlace_journal {needs : Requirements} {t : Table}
    (h : updateInPlace settings d needs w = (.ok t, w')) :
    w'.database.journal =
      w.database.journal ++ inPlaceStatements settings needs d.name d.staleFields := by
  obtain ⟨u, w1, h1, h⟩ := Run.bind_eq_ok.1 h
  have hfields := storeFields_journal h1
  unfold inPlaceStatements
  split at h
  · rename_i hneeds
    obtain ⟨u', w2, h2, h⟩ := Run.bind_eq_ok.1 h
    have hextended := storeExtended_journal h2
    cases h
    change w2.database.journal = _
    rw [hextended, hfields, hneeds, Bool.true_and, List.append_assoc]
    rfl
  · rename_i hneeds
    cases h
    change w1.database.journal = _
    rw [hfields, if_neg (by simp [hneeds]), List.append_nil]

end Journal

/-- A row has to be written: its main data have changed, or some row was moved and it does not
stand where it stood. -/
def Reduction.WritesRow (r : Reduction) (t : Table) (position : Nat) (f : Field) : Prop :=
  (∃ p ∈ r.ordered, Addresses r.ordered p.uid f.name ∧ p.WritesRow) ∨
    (∃ p ∈ r.ordered, p.action.isMove) ∧ t.fieldIndex? f.name ≠ some position

/-- What a database is like after the definition of a table was edited in place: nothing but the
rows in `written` was stored, each with its final position and in ascending order, and maybe the
extended data after them. -/
structure Database.EditedInPlace (settings : Settings) (table : String) (t altered : Table)
    (r : Reduction) (written : List (Nat × Field)) (db db' : Database) : Prop where
  tables : db'.tables = db.tables
  journal : db'.journal = db.journal ++ (written.map (fieldStatement t.name) ++
    if r.ordered.any (·.requirements.extended) && settings.storeExtendedSchema then
      ["STORE EXTENDED " ++ t.name]
    else [])
  ascending : written.Pairwise fun x y => x.1 < y.1
  mem_written : ∀ i f,
    (i, f) ∈ written ↔ altered.fields[i]? = some f ∧ r.WritesRow t i f
  defined : ∃ c, db'.catalog.table? table = some c ∧ c.names.Perm t.names ∧
    ∀ f, f ∈ c.fields ↔ (∃ i, (i, f) ∈ written) ∨ f ∈ t.fields ∧ ∀ x ∈ written, x.2.name ≠ f.name

namespace Draft

variable {t : Table} {d : Draft}

theorem mem_staleFields_iff {l : List Planned} (h : Binds l d) (htags : SameTags (Draft.of t) d)
    (hd : d.table.NamesDistinct) (i : Nat) (f : Field) :
    (i, f) ∈ d.staleFields ↔ d.table.fields[i]? = some f ∧
      ((∃ p ∈ l, Addresses l p.uid f.name ∧ p.WritesRow) ∨
        (∃ p ∈ l, p.action.isMove) ∧ t.fieldIndex? f.name ≠ some i) := by
  rw [mem_staleFields, table, fields, List.getElem?_map, Option.map_eq_some_iff]
  constructor
  · intro hstale
    obtain ⟨q, hq, hs, rfl⟩ := hstale
    exact ⟨⟨q, hq, rfl⟩, (h.isStale_iff htags hd hq).1 hs⟩
  · intro hrow
    obtain ⟨⟨q, hq, rfl⟩, hwrites⟩ := hrow
    exact ⟨q, hq, (h.isStale_iff htags hd hq).2 hwrites, rfl⟩

/-- The catalog has the rows that were written, and those of other names as they were. -/
theorem mem_stored_iff (htags : SameTags (Draft.of t) d) (hd : d.table.NamesDistinct)
    (f : Field) :
    f ∈ (t.storeFields d.staleFields).fields ↔
      (∃ i, (i, f) ∈ d.staleFields) ∨
        f ∈ t.fields ∧ ∀ x ∈ d.staleFields, x.2.name ≠ f.name := by
  have hperm := names_perm_of_sameTags htags
  have hn : t.NamesDistinct := Table.namesDistinct_of_perm hperm hd
  have hknown : ∀ x ∈ d.staleFields, x.2.name ∈ t.names := fun x hx =>
    hperm.mem_iff.1 ((staleFields_names d).subset (List.mem_map_of_mem hx))
  rw [Table.mem_fields_storeFields hn hknown (hd.names_nodup.sublist (staleFields_names d))]
  refine or_congr ⟨fun h => ?_, fun h => ?_⟩ ?_
  · obtain ⟨⟨i, g⟩, hx, rfl⟩ := h
    exact ⟨i, hx⟩
  · obtain ⟨i, hi⟩ := h
    exact ⟨(i, f), hi, rfl⟩
  · exact and_congr_right fun _ => forall₂_congr fun x _ => ne_comm

theorem stored_names_perm (htags : SameTags (Draft.of t) d) (hd : d.table.NamesDistinct) :
    (t.storeFields d.staleFields).names.Perm t.names := by
  have hperm := names_perm_of_sameTags htags
  refine Table.names_storeFields_perm (Table.namesDistinct_of_perm hperm hd) fun x hx => ?_
  exact hperm.mem_iff.1 ((staleFields_names d).subset (List.mem_map_of_mem hx))

end Draft

namespace Alteration

variable {a : Alteration} {table : String} {t : Table} {w w' : World} {o : Outcome}

theorem edited_binds {l : List Planned} {d : Draft} (hl : ∀ p ∈ l, p.action.KeepsNames)
    (h : edited t l = .ok d) : d.Binds l := by
  obtain ⟨d0, h0, -, rfl⟩ := edited_eq_ok h
  have hbinds := (Draft.binds_of t).applyAll hl h0
  exact ⟨hbinds.bound, hbinds.housed, hbinds.changed, hbinds.moved⟩

theorem commit_inPlace_eq_ok {settings : Settings} {altered : Table} {r : Reduction}
    (h : commit settings table t r .inPlace w = (.ok altered, w')) :
    ∃ d c, edited t r.ordered = .ok d ∧ altered = d.table ∧
      w'.database.journal = w.database.journal ++
        inPlaceStatements settings r.requirements d.name d.staleFields ∧
      w.database.catalog.storeFields? d.name d.staleFields = some c ∧
      w'.database.content = { w.database.content with
        catalog := if r.requirements.extended && settings.storeExtendedSchema then
          c.storeExtended d.table else c } := by
  obtain ⟨d, w1, h1, h⟩ := Run.bind_eq_ok.1 h
  obtain ⟨hd, rfl⟩ := Prod.mk.inj h1
  obtain ⟨u, w2, h2, h⟩ := Run.bind_eq_ok.1 h
  cases h2
  obtain ⟨t', w3, h3, h⟩ := Run.bind_eq_ok.1 h
  obtain ⟨rfl, c, hc, hcontent⟩ := updateInPlace_eq_ok h3
  have hjournal := updateInPlace_journal h3
  cases h
  exact ⟨d, c, hd, rfl, hjournal, hc, hcontent⟩

/-- What a commit in place does from where planning has left the database. -/
theorem editedInPlace_of_commit {settings : Settings} {altered : Table} {r : Reduction}
    (hkeeps : ∀ p ∈ r.ordered, p.action.KeepsNames)
    (ht : w.database.catalog.table? table = some t)
    (h : commit settings table t r .inPlace w = (.ok altered, w')) :
    ∃ written,
      Database.EditedInPlace settings table t altered r written w.database w'.database := by
  obtain ⟨d, c, hd, rfl, hjournal, hc, hcontent⟩ := commit_inPlace_eq_ok h
  obtain ⟨hdistinct, htags⟩ := sameTags_of_edited hkeeps hd
  have hdname : d.name = t.name := htags.name
  rw [hdname] at hc
  have hdefined : w'.database.catalog.table? table = c.table? table := by
    have hcatalog : w'.database.catalog =
        if r.requirements.extended && settings.storeExtendedSchema then c.storeExtended d.table
        else c := congrArg Database.catalog hcontent
    rw [hcatalog]
    split <;> rfl
  refine ⟨d.staleFields, ?_, ?_, d.staleFields_ascending,
    Draft.mem_staleFields_iff (edited_binds hkeeps hd) htags hdistinct,
    t.storeFields d.staleFields, ?_, Draft.stored_names_perm htags hdistinct,
    Draft.mem_stored_iff htags hdistinct⟩
  · have htables : w'.database.content.tables = w.database.content.tables := by rw [hcontent]
    exact htables
  · rw [hjournal, inPlaceStatements, hdname, r.extended_eq]
  · rw [hdefined]
    exact Catalog.table?_storeFields?_name ht hc

/-- A commit in place writes exactly the rows that it has to, and no physical table. -/
theorem inPlace_writes (h : a.execute table .commit w = (.ok o, w'))
    (hs : o.strategy = some .inPlace) (hw : w.database.AnswersFromCatalog)
    (ht : w.database.catalog.table? table = some t) :
    ∃ l r altered written, planAll a.actions = .ok l ∧ Reduction.of l = .ok r ∧
      o.table = some altered ∧
      Database.EditedInPlace a.settings table t altered r written w.database w'.database := by
  obtain ⟨t', l, r, w1, ⟨db, hlookup⟩, hplan, hreduce, hstill, hcases⟩ := execute_steps h
  obtain rfl : t = t' := Option.some.inj (ht.symm.trans (tableSchema_eq_catalog hw hlookup).symm)
  have hunprobed := World.unprobed_of_still hstill
  have hcontent1 := Database.content_of_unprobed hunprobed
  have hjournal1 : w1.database.unprobed.journal = w.database.unprobed.journal := by rw [hunprobed]
  rcases hcases with ⟨hnone, rfl, rfl⟩ | ⟨s, altered, hstrategy, rfl, hcommit⟩
  · have hs : Strategy.for? r.requirements = some .inPlace := hs
    rw [hnone] at hs
    cases hs
  · obtain rfl : s = .inPlace := Option.some.inj (hstrategy.symm.trans hs)
    have hkeeps :=
      Reduction.keepsNames hplan hreduce (Strategy.physical_of_inPlace hstrategy)
    have hfound : w1.database.catalog.table? table = some t := by
      rw [Database.catalog_of_content hcontent1]
      exact ht
    obtain ⟨written, hedited⟩ := editedInPlace_of_commit hkeeps hfound hcommit
    refine ⟨l, r, altered, written, hplan, hreduce, rfl, ?_⟩
    -- planning has neither touched the tables nor asked for anything
    exact { hedited with
      tables := hedited.tables.trans (Database.tables_of_content hcontent1)
      journal := hedited.journal.trans (congrArg (· ++ _) hjournal1) }

/-- The second column goes to the front; the third gets extended data, the fourth a caption. -/
def moveAndCaption : Alteration where
  actions := [.move ⟨1⟩ "b" 0, .change ⟨2⟩ "c" "rowSource" (.text "x"),
    .change ⟨3⟩ "d" "caption" (.text "D")]

/-- The third column stays where it is, and its row is not written. -/
theorem inPlace_writes_of_move_and_caption :
    ∃ t o w' l r altered written, fourColumns.database.catalog.table? "t" = some t ∧
      moveAndCaption.execute "t" .commit fourColumns = (.ok o, w') ∧
      planAll moveAndCaption.actions = .ok l ∧ Reduction.of l = .ok r ∧
      o.table = some altered ∧
      Database.EditedInPlace moveAndCaption.settings "t" t altered r written
        fourColumns.database w'.database ∧
      w'.database.journal = ["STORE FIELD t.b AT 0", "STORE FIELD t.a AT 1",
        "STORE FIELD t.d AT 3", "STORE EXTENDED t"] := by
  have hstrategy : (moveAndCaption.execute "t" .commit fourColumns).1.map (·.strategy) =
      .ok (some .inPlace) := by decide +kernel
  have hjournal : (moveAndCaption.execute "t" .commit fourColumns).2.database.journal =
      ["STORE FIELD t.b AT 0", "STORE FIELD t.a AT 1", "STORE FIELD t.d AT 3",
        "STORE EXTENDED t"] := by decide +kernel
  obtain ⟨o, ho, hs⟩ := map_eq_ok.1 hstrategy
  have hrun := Run.eq_of_fst ho
  obtain ⟨l, r, altered, written, hplan, hreduce, htable, hedited⟩ :=
    inPlace_writes hrun hs ⟨rfl, rfl⟩ rfl
  exact ⟨_, o, _, l, r, altered, written, rfl, hrun, hplan, hreduce, htable, hedited, hjournal⟩

end Alteration

end TableAlteration
