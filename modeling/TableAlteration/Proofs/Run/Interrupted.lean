import TableAlteration.Proofs.Run.ExtendedData
import TableAlteration.Proofs.Run.FieldOrder
import TableAlteration.Proofs.Run.Planning
import TableAlteration.Proofs.Store.Unchanged

namespace TableAlteration

/-- Whether the database would fail a write of that kind after `n` successful ones. -/
def Database.Refuses (db : Database) (p : FailPoint) (n : Nat) : Prop :=
  p ∈ db.failing ∨ db.writes + n + 1 ∈ db.refused

namespace Database

variable {db db' : Database} {c : Catalog} {t : Table} {p : FailPoint} {table : String}
  {f : Field} {s : BackendError} {i m n : Nat} {u : Unit}

theorem refuses_of_written (h : db'.content = { db.content with catalog := c })
    (hw : db'.writes = db.writes + m) : db'.Refuses p n ↔ db.Refuses p (m + n) := by
  have hfailing : db'.content.failing = db.content.failing := by
    rw [h]
  have hrefused : db'.content.refused = db.content.refused := by
    rw [h]
  change p ∈ db'.content.failing ∨ db'.writes + n + 1 ∈ db'.content.refused ↔ _
  rw [hfailing, hrefused, hw, Nat.add_assoc db.writes m n]
  rfl

/-- What a database accepts behind a successful write was accepted behind it from the start. -/
theorem not_refuses_succ (h : db'.content = { db.content with catalog := c })
    (hw : db'.writes = db.writes + 1) (hfirst : ¬db.Refuses p 0)
    (hrest : ∀ i < n, ¬db'.Refuses p i) : ∀ i < n + 1, ¬db.Refuses p i := by
  intro i hi
  cases i with
  | zero => exact hfirst
  | succ i =>
    have hi := hrest i (Nat.lt_of_succ_lt_succ hi)
    rwa [refuses_of_written h hw, Nat.add_comm] at hi

theorem storeField_accepted (h : storeField table i f db = (.ok u, db')) :
    ¬db.Refuses .storeField 0 ∧ db'.writes = db.writes + 1 := by
  unfold storeField at h
  obtain ⟨hp, h⟩ := write_eq_ok.1 h
  split at h
  · cases h
  · rename_i hrefused
    split at h
    · cases h
      exact ⟨fun hr => hr.elim hp hrefused, rfl⟩
    · cases h

/-- A row of a table that the catalog has is refused, or it is stored. -/
theorem storeField_refused (ht : db.catalog.table? table = some t)
    (h : storeField table i f db = (.error s, db')) :
    db.Refuses .storeField 0 ∧ db'.content = db.content := by
  unfold storeField at h
  rcases write_eq_error.1 h with ⟨hp, -, rfl⟩ | ⟨-, h⟩
  · exact ⟨.inl hp, rfl⟩
  · split at h
    · rename_i hrefused
      cases h
      exact ⟨.inr hrefused, rfl⟩
    · split at h
      · cases h
      · rename_i hnone
        have hnone : (db.catalog.table? table).map _ = none := hnone
        rw [ht] at hnone
        cases hnone

theorem storeExtended_refused (h : storeExtended t db = (.error s, db')) :
    db.Refuses .storeExtended 0 ∧ db' = db := by
  unfold storeExtended at h
  split at h
  · rename_i hrefused
    cases h
    exact ⟨hrefused, rfl⟩
  · cases h

end Database

/-- Of the rows to be written in place `k` are stored, and the write behind them fails. -/
structure Draft.StopsAfter (d : Draft) (settings : Settings) (needs : Requirements)
    (db : Database) (k : Nat) : Prop where
  stored : ∀ i < k, ¬db.Refuses .storeField i
  stopped : k < d.staleFields.length ∧ db.Refuses .storeField k ∨
    k = d.staleFields.length ∧ needs.extended ∧ settings.storeExtendedSchema ∧
      db.Refuses .storeExtended k

theorem Draft.StopsAfter.of_unprobed {d : Draft} {settings : Settings} {needs : Requirements}
    {db db' : Database} {k : Nat} (e : db'.unprobed = db.unprobed)
    (h : d.StopsAfter settings needs db' k) : d.StopsAfter settings needs db k := by
  have h' : d.StopsAfter settings needs db'.unprobed k := ⟨h.stored, h.stopped⟩
  rw [e] at h'
  exact ⟨h'.stored, h'.stopped⟩

section Requests

variable {settings : Settings} {needs : Requirements} {w w' : World} {t : Table} {table : String}
  {d : Draft} {l : List (Nat × Field)} {e : AlterError} {u : Unit}

theorem storeFields_accepted (h : storeFields table l w = (.ok u, w')) :
    (∀ i < l.length, ¬w.database.Refuses .storeField i) ∧
      w'.database.writes = w.database.writes + l.length := by
  induction l generalizing w with
  | nil =>
    cases h
    exact ⟨fun i hi => absurd hi (Nat.not_lt_zero i), rfl⟩
  | cons x rest ih =>
    obtain ⟨u1, w1, h1, h⟩ := Run.bind_eq_ok.1 h
    obtain ⟨db, hdb, rfl⟩ := Run.ask_eq_ok.1 h1
    obtain ⟨c1, -, hcontent⟩ := Database.storeField_eq_ok hdb
    obtain ⟨haccepted, hwrites⟩ := Database.storeField_accepted hdb
    obtain ⟨hrest, hwrites'⟩ := ih h
    refine ⟨Database.not_refuses_succ hcontent hwrites haccepted hrest, ?_⟩
    rw [hwrites', hwrites, List.length_cons]
    omega

/-- Where the rows cannot all be stored, those in front of one that is refused have been. -/
theorem storeFields_stopped (ht : w.database.catalog.table? table = some t)
    (h : storeFields table l w = (.error e, w')) :
    ∃ k s c, k < l.length ∧ (∀ i < k, ¬w.database.Refuses .storeField i) ∧
      w.database.Refuses .storeField k ∧ e = .catalogWriteFailed table s ∧
      w.database.catalog.storeFields? table (l.take k) = some c ∧
      w'.database.content = { w.database.content with catalog := c } := by
  induction l generalizing w t with
  | nil => cases h
  | cons x rest ih =>
    rcases Run.bind_eq_error.1 h with h | ⟨u1, w1, h1, h⟩
    · obtain ⟨s, db, hdb, rfl, rfl⟩ := Run.ask_eq_error.1 h
      obtain ⟨hrefused, hcontent⟩ := Database.storeField_refused ht hdb
      exact ⟨0, s, _, Nat.zero_lt_succ _, fun i hi => absurd hi (Nat.not_lt_zero i), hrefused, rfl,
        rfl, hcontent⟩
    · obtain ⟨db, hdb, rfl⟩ := Run.ask_eq_ok.1 h1
      obtain ⟨c1, hc1, hcontent⟩ := Database.storeField_eq_ok hdb
      obtain ⟨haccepted, hwrites⟩ := Database.storeField_accepted hdb
      have hcatalog : db.catalog = c1 := congrArg Database.catalog hcontent
      have hfound : db.catalog.table? table = some (t.storeFields [x]) := by
        rw [hcatalog]
        refine Catalog.table?_storeFields? ht ?_
        exact Option.bind_eq_some_iff.2 ⟨c1, hc1, rfl⟩
      obtain ⟨k, s, c, hk, hstored, hrefused, he, hc, hw⟩ := ih hfound h
      rw [Database.refuses_of_written hcontent hwrites, Nat.add_comm] at hrefused
      refine ⟨k + 1, s, c, Nat.succ_lt_succ hk,
        Database.not_refuses_succ hcontent hwrites haccepted hstored, hrefused, he, ?_, ?_⟩
      · rw [List.take_succ_cons]
        rw [hcatalog] at hc
        exact Option.bind_eq_some_iff.2 ⟨c1, hc1, hc⟩
      · rw [hw, hcontent]

theorem updateInPlace_stopped (ht : w.database.catalog.table? d.name = some t)
    (h : updateInPlace settings d needs w = (.error e, w')) :
    ∃ k s c, d.StopsAfter settings needs w.database k ∧ e = .catalogWriteFailed d.name s ∧
      w.database.catalog.storeFields? d.name (d.staleFields.take k) = some c ∧
      w'.database.content = { w.database.content with catalog := c } := by
  rcases Run.bind_eq_error.1 h with h | ⟨u, w1, h1, h⟩
  · obtain ⟨k, s, c, hk, hstored, hrefused, he, hc, hw⟩ := storeFields_stopped ht h
    exact ⟨k, s, c, ⟨hstored, .inl ⟨hk, hrefused⟩⟩, he, hc, hw⟩
  · obtain ⟨c, hc, hw1⟩ := storeFields_eq_ok h1
    obtain ⟨hstored, hwrites⟩ := storeFields_accepted h1
    split at h
    · rename_i hneeds
      rcases Run.bind_eq_error.1 h with h | ⟨u', w2, -, h⟩
      · unfold storeExtended at h
        split at h
        · rename_i hsettings
          obtain ⟨s, db, hdb, rfl, rfl⟩ := Run.ask_eq_error.1 h
          obtain ⟨hrefused, rfl⟩ := Database.storeExtended_refused hdb
          rw [Database.refuses_of_written hw1 hwrites, Nat.add_zero] at hrefused
          refine ⟨_, s, c, ⟨hstored, .inr ⟨rfl, hneeds, hsettings, hrefused⟩⟩, rfl, ?_, hw1⟩
          rw [List.take_length]
          exact hc
        · cases h
      · cases h
    · cases h

end Requests

namespace Draft

variable {t : Table} {d : Draft}

theorem staleFields_ascending (d : Draft) : d.staleFields.Pairwise fun x y => x.1 < y.1 := by
  have hpositions : (d.rows.zipIdx.map Prod.snd).Pairwise (· < ·) := by
    rw [List.zipIdx_map_snd]
    exact List.pairwise_lt_range'
  exact List.pairwise_map.2 ((List.pairwise_map.1 hpositions).sublist List.filter_sublist)

/-- Where the column of a row in another place was, a row is written. -/
theorem isStale_of_idxOf_ne (hd : d.table.NamesDistinct) (h : SameTags (Draft.of t) d)
    {i j : Nat} {q r : Row} (hq : d.rows[i]? = some q) (hr : d.rows[j]? = some r)
    (hj : t.names.idxOf q.field.name = j) (hne : j ≠ i) : d.isStale j r := by
  have hnames : d.table.names = d.rows.map fun r => r.field.name := by
    rw [Table.names, table, fields, List.map_map]
    rfl
  have hmem : q.field.name ∈ t.names := by
    rw [← (names_perm_of_sameTags h).mem_iff, hnames]
    exact List.mem_map_of_mem (List.mem_of_getElem? hq)
  have hlt := List.idxOf_lt_length_of_mem hmem
  by_contra hs
  -- a row that is not written there would have the name a second time
  have hkept := origin_of_not_stale h hr (Bool.eq_false_iff.2 hs)
  subst hj
  rw [List.getElem?_eq_getElem hlt, List.getElem_idxOf hlt, Option.some_inj] at hkept
  have hget : ∀ {k : Nat} {x : Row}, d.rows[k]? = some x →
      d.table.names[k]? = some x.field.name := by
    intro k x hx
    rw [hnames, List.getElem?_map, hx]
    rfl
  have hrange := (List.getElem?_eq_some_iff.1 (hget hr)).1
  have hsame := (hget hr).trans ((congrArg some hkept.symm).trans (hget hq).symm)
  exact hne ((List.getElem?_inj hrange hd.names_nodup).1 hsame)

/-- However many of the rows are stored, each field that has come from further in front has left
its place to a row stored before. -/
theorem advances_take (hd : d.table.NamesDistinct) (h : SameTags (Draft.of t) d) (k : Nat) :
    t.Advances (d.staleFields.take k) := by
  have hnames : ((d.staleFields.take k).map (·.2.name)).Sublist d.table.names :=
    ((List.take_sublist k _).map _).trans (staleFields_names d)
  have hsorted := staleFields_ascending d
  refine ⟨fun x hx => ?_, hd.names_nodup.sublist hnames, hsorted.sublist (List.take_sublist k _),
    fun x hx hlt => ?_⟩
  · exact (names_perm_of_sameTags h).mem_iff.1 (hnames.subset (List.mem_map_of_mem hx))
  · obtain ⟨q, hq, -, hfield⟩ := mem_staleFields.1 (List.mem_of_mem_take hx)
    rw [hfield] at hlt ⊢
    have hlen := Nat.lt_trans hlt (List.getElem?_eq_some_iff.1 hq).1
    obtain ⟨r, hr⟩ : ∃ r, d.rows[t.names.idxOf q.field.name]? = some r :=
      ⟨_, List.getElem?_eq_getElem hlen⟩
    have hstale := isStale_of_idxOf_ne hd h hq hr rfl (Nat.ne_of_lt hlt)
    have hy : (t.names.idxOf q.field.name, r.field) ∈ d.staleFields :=
      mem_staleFields.2 ⟨r, hr, hstale, rfl⟩
    refine ⟨(t.names.idxOf q.field.name, r.field), ?_, rfl⟩
    rw [← List.take_append_drop k d.staleFields] at hsorted hy
    refine (List.mem_append.1 hy).resolve_right fun hdrop => ?_
    exact Nat.lt_asymm hlt ((List.pairwise_append.1 hsorted).2.2 x hx _ hdrop)

end Draft

namespace Alteration

variable {a : Alteration} {table : String} {t : Table} {w w' : World} {e : AlterError}

/-- A commit in place fails before its first write or in one of them. -/
theorem commit_inPlace_stopped {settings : Settings} {r : Reduction}
    (ht : w.database.catalog.table? t.name = some t)
    (hl : ∀ p ∈ r.ordered, p.action.KeepsNames)
    (h : commit settings table t r .inPlace w = (.error e, w')) :
    w'.still = w.still ∨ ∃ d k s c, edited t r.ordered = .ok d ∧
      d.StopsAfter settings r.requirements w.database k ∧ e = .catalogWriteFailed t.name s ∧
      w.database.catalog.storeFields? t.name (d.staleFields.take k) = some c ∧
      w'.database.content = { w.database.content with catalog := c } := by
  rcases Run.bind_eq_error.1 h with h | ⟨d, w1, h1, h⟩
  · exact .inl ((Run.Preliminary.lift (edited_noRebuild t r.ordered)).still_eq h)
  · obtain ⟨hd, rfl⟩ := Prod.mk.inj h1
    obtain ⟨-, htags⟩ := sameTags_of_edited hl hd
    have hname : d.name = t.name := htags.name
    rcases Run.bind_eq_error.1 h with h | ⟨u, w2, h2, h⟩
    · cases h
    · cases h2
      rcases Run.bind_eq_error.1 h with h | ⟨t', w3, -, h⟩
      · rw [← hname] at ht
        obtain ⟨k, s, c, hstops, he, hc, hw⟩ := updateInPlace_stopped (w := w.note _) ht h
        rw [hname] at he hc
        exact .inr ⟨d, k, s, c, hd, hstops, he, hc, hw⟩
      · cases h

theorem execute_inPlace_stopped (h : a.execute table .commit w = (.error e, w'))
    (hw : w.database.AnswersFromCatalog) (ht : w.database.catalog.table? table = some t)
    (hinPlace : ∀ l r, planAll a.actions = .ok l → Reduction.of l = .ok r →
      r.requirements.physical = false) :
    w'.database.unprobed = w.database.unprobed ∨
      ∃ l r d k s c, planAll a.actions = .ok l ∧ Reduction.of l = .ok r ∧
        edited t r.ordered = .ok d ∧ d.StopsAfter a.settings r.requirements w.database k ∧
        e = .catalogWriteFailed t.name s ∧
        w.database.catalog.storeFields? t.name (d.staleFields.take k) = some c ∧
        w'.database.catalog = c := by
  obtain ⟨w1, hrun, rfl⟩ := Run.orCleanUp_eq_error.1 h
  have hreport := World.unprobed_of_still ((report_preliminary table e).still w1)
  rw [run_commit] at hrun
  rcases Run.bind_eq_error.1 hrun with hprepare | ⟨⟨t', l, r⟩, w2, hprepare, hrun⟩
  · have hstill := (prepare_preliminary a table).still_eq hprepare
    exact .inl (hreport.trans (World.unprobed_of_still hstill))
  · have hstill := World.unprobed_of_still ((prepare_preliminary a table).still_eq hprepare)
    have hcatalog := Database.catalog_of_content (Database.content_of_unprobed hstill)
    obtain ⟨⟨db, hlookup⟩, hplan, hreduce⟩ := prepare_eq_ok hprepare
    have hfound := tableSchema_eq_catalog hw hlookup
    obtain rfl : t = t' := Option.some.inj (ht.symm.trans hfound.symm)
    have hphysical := hinPlace l r hplan hreduce
    have hkeeps := Reduction.keepsNames hplan hreduce hphysical
    have ht2 : w2.database.catalog.table? t.name = some t := by
      rw [hcatalog]
      exact Catalog.table?_name ht
    dsimp only [proceed] at hrun
    cases hs : Strategy.for? r.requirements with
    | none =>
      rw [hs] at hrun
      cases hrun
    | some strategy =>
      rw [hs] at hrun
      have hinPlace : strategy = .inPlace := by
        cases strategy with
        | inPlace => rfl
        | rebuild =>
          rw [Strategy.physical_of_rebuild hs] at hphysical
          cases hphysical
      subst hinPlace
      rcases Run.bind_eq_error.1 hrun with hcommit | ⟨altered, w3, -, hrun⟩
      · rcases commit_inPlace_stopped ht2 hkeeps hcommit with hfirst |
          ⟨d, k, s, c, hd, hstops, he, hc, hcontent⟩
        · exact .inl ((hreport.trans (World.unprobed_of_still hfirst)).trans hstill)
        · have hreported := Database.catalog_of_content (Database.content_of_unprobed hreport)
          rw [hcatalog] at hc
          refine .inr ⟨l, r, d, k, s, c, hplan, hreduce, hd, hstops.of_unprobed hstill, he, hc, ?_⟩
          rw [hreported]
          exact congrArg Database.catalog hcontent
      · cases hrun

/-- An alteration without a rebuild that fails leaves the extended data and all other definitions as
they were. If a write has failed, the rows in front of it stay in the definition of the table, which
is as it was only if each of them stood there already as it was written. -/
theorem failed_inPlace_keeps_stored (h : a.execute table .commit w = (.error e, w'))
    (hw : w.database.AnswersFromCatalog) (ht : w.database.catalog.table? table = some t)
    (hinPlace : ∀ l r, planAll a.actions = .ok l → Reduction.of l = .ok r →
      r.requirements.physical = false) :
    w'.database.catalog.extended = w.database.catalog.extended ∧
    (∀ other, Text.sameName other table = false →
      w'.database.catalog.table? other = w.database.catalog.table? other) ∧
    (w'.database.unprobed = w.database.unprobed ∨
      ∃ l r d k s, planAll a.actions = .ok l ∧ Reduction.of l = .ok r ∧
        edited t r.ordered = .ok d ∧ d.StopsAfter a.settings r.requirements w.database k ∧
        e = .catalogWriteFailed t.name s ∧
        w'.database.catalog.table? table = some (t.storeFields (d.staleFields.take k)) ∧
        (w'.database.catalog.table? table = w.database.catalog.table? table ↔
          ∀ x ∈ d.staleFields.take k, t.fields[x.1]? = some x.2)) := by
  have hkey := Catalog.fold_name_of_table? ht
  rcases execute_inPlace_stopped h hw ht hinPlace with hdb |
    ⟨l, r, d, k, s, c, hplan, hreduce, hd, hstops, he, hc, hcatalog⟩
  · have hcatalog := Database.catalog_of_content (Database.content_of_unprobed hdb)
    exact ⟨by rw [hcatalog], fun other _ => by rw [hcatalog], .inl hdb⟩
  · have hkeeps := Reduction.keepsNames hplan hreduce (hinPlace l r hplan hreduce)
    obtain ⟨hn, htags⟩ := sameTags_of_edited hkeeps hd
    have hnt := Table.namesDistinct_of_perm (Draft.names_perm_of_sameTags htags) hn
    have hstored := Catalog.table?_storeFields?_name ht hc
    rw [hcatalog]
    refine ⟨Catalog.extended_storeFields? hc, fun other hother => ?_, .inr
      ⟨l, r, d, k, s, hplan, hreduce, hd, hstops, he, hstored, ?_⟩⟩
    · refine Catalog.table?_storeFields?_of_ne ?_ hc
      rw [Bool.eq_false_iff] at hother ⊢
      intro hsame
      exact hother (Text.sameName_iff.2 ((Text.sameName_iff.1 hsame).trans hkey))
    · rw [hstored, ht, Option.some_inj]
      exact (Draft.advances_take hn htags k).storeFields_eq_iff hnt

def secondRefused : World :=
  { twoColumns with database := { twoColumns.database with refused := [2] } }

def twoCaptions : Alteration where
  actions := [.change ⟨1⟩ "a" "caption" (.text "x"), .change ⟨2⟩ "b" "caption" (.text "y")]

/-- There the second of two captions is refused. -/
theorem failed_inPlace_keeps_stored_of_two_captions :
    ∃ t e w', secondRefused.database.catalog.table? "t" = some t ∧
      twoCaptions.execute "t" .commit secondRefused = (.error e, w') ∧
      w'.database.catalog.extended = secondRefused.database.catalog.extended ∧
      ∃ l r d k s, planAll twoCaptions.actions = .ok l ∧ Reduction.of l = .ok r ∧
        edited t r.ordered = .ok d ∧
        d.StopsAfter twoCaptions.settings r.requirements secondRefused.database k ∧
        e = .catalogWriteFailed t.name s ∧
        w'.database.catalog.table? "t" = some (t.storeFields (d.staleFields.take k)) ∧
        (w'.database.catalog.table? "t" = secondRefused.database.catalog.table? "t" ↔
          ∀ x ∈ d.staleFields.take k, t.fields[x.1]? = some x.2) := by
  have hfails : (twoCaptions.execute "t" .commit secondRefused).1 =
      .error (.catalogWriteFailed "t" (.query "STORE FIELD t.b AT 1"
        FailPoint.storeField.message)) := rfl
  have hwrites : (twoCaptions.execute "t" .commit secondRefused).2.database.unprobed ≠
      secondRefused.database.unprobed := by decide +kernel
  obtain ⟨hextended, -, hstored⟩ := failed_inPlace_keeps_stored (Run.eq_of_fst hfails)
    ⟨rfl, rfl⟩ rfl fun l r hl hr => by
      cases hl
      cases hr
      rfl
  exact ⟨_, _, _, rfl, Run.eq_of_fst hfails, hextended, hstored.resolve_left hwrites⟩

def extendedRefused : World :=
  { twoColumns with database := { twoColumns.database with failing := [.storeExtended] } }

def captionAndSource : Alteration where
  actions := [.change ⟨1⟩ "a" "caption" (.text "x"), .change ⟨2⟩ "b" "rowSource" (.text "y")]

/-- Where the extended data are refused, the caption stored before them stays. -/
theorem failed_inPlace_changes_definition :
    ∃ l r e w', planAll captionAndSource.actions = .ok l ∧ Reduction.of l = .ok r ∧
      (∀ p ∈ r.ordered, p.requirements.physical = false) ∧
      captionAndSource.execute "t" .commit extendedRefused = (.error e, w') ∧
      w'.database.catalog.table? "t" ≠ extendedRefused.database.catalog.table? "t" := by
  have hfails : (captionAndSource.execute "t" .commit extendedRefused).1 =
      .error (.catalogWriteFailed "t" (.other FailPoint.storeExtended.message)) := rfl
  obtain ⟨l, r, hl, hr, hphysical⟩ : ∃ l r, planAll captionAndSource.actions = .ok l ∧
      Reduction.of l = .ok r ∧ ∀ p ∈ r.ordered, p.requirements.physical = false :=
    ⟨_, _, rfl, rfl, by decide +kernel⟩
  exact ⟨l, r, _, _, hl, hr, hphysical, Run.eq_of_fst hfails, by decide +kernel⟩

end Alteration

end TableAlteration
