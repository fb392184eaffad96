import TableAlteration.Proofs.Edit.Untouched
import TableAlteration.Proofs.Run.Commit
import TableAlteration.Proofs.Store.Extended

namespace TableAlteration

/-- A rebuild writes extended data anew, an edit in place if the data may have changed. -/
def Requirements.writesExtended (r : Requirements) : Bool := r.physical || r.extended

/-- When the definition of the field `f` and the extended data agree on a property after a commit of
`r` on `t`. -/
def Agreement (t : Table) (r : Reduction) (table : String) (before after : Catalog) (f : Field)
    (p : Property) : Prop :=
  if r.requirements.physical then after.AgreesOn table f p
  else if r.requirements.extended then
    -- a row whose main data stay as they are is not written, whatever its extended data
    ∃ d i q o g, Alteration.edited t r.ordered = .ok d ∧ d.rows[i]? = some q ∧
      q.field.name = f.name ∧ q.origin = some o ∧ t.fields[o.position]? = some g ∧
      (after.AgreesOn table f p ↔
        d.isStale i q ∨ g.extendedValue? p = q.field.extendedValue? p)
  else ∃ g ∈ t.fields, g.name = f.name ∧ (after.AgreesOn table f p ↔ before.AgreesOn table g p)

namespace Draft

variable {t : Table} {d : Draft}

theorem mem_staleFields {x : Nat × Field} :
    x ∈ d.staleFields ↔ ∃ q, d.rows[x.1]? = some q ∧ d.isStale x.1 q ∧ x.2 = q.field := by
  unfold staleFields
  rw [List.mem_map]
  constructor
  · intro h
    obtain ⟨⟨q, i⟩, hq, rfl⟩ := h
    obtain ⟨hq, hs⟩ := List.mem_filter.1 hq
    exact ⟨q, List.mk_mem_zipIdx_iff_getElem?.1 hq, hs, rfl⟩
  · intro h
    obtain ⟨q, hq, hs, e⟩ := h
    exact ⟨(q, x.1), List.mem_filter.2 ⟨List.mk_mem_zipIdx_iff_getElem?.2 hq, hs⟩,
      Prod.ext rfl e.symm⟩

theorem staleFields_names (d : Draft) : (d.staleFields.map (·.2.name)).Sublist d.table.names := by
  have hfst : d.rows.zipIdx.map Prod.fst = d.rows := List.zipIdx_map_fst 0 d.rows
  rw [staleFields, Table.names, table, fields, List.map_map, List.map_map]
  conv_rhs => rw [← hfst, List.map_map]
  exact List.filter_sublist.map _

/-- A field that is stored in place is that of its row if the row is written, or else the old
one. -/
theorem row_of_stored (hd : d.table.NamesDistinct) (h : SameTags (Draft.of t) d) {f : Field}
    (hf : f ∈ (t.storeFields d.staleFields).fields) :
    ∃ (i : Nat) (q : Row) (o : Origin) (g : Field), d.rows[i]? = some q ∧
      q.field.name = f.name ∧ q.origin = some o ∧ t.fields[o.position]? = some g ∧
      g.name = f.name ∧ f = if d.isStale i q then q.field else g := by
  have hperm := names_perm_of_sameTags h
  have hn : t.NamesDistinct := Table.namesDistinct_of_perm hperm hd
  have hnodup : (d.staleFields.map (·.2.name)).Nodup :=
    hd.names_nodup.sublist (staleFields_names d)
  have hsub : ∀ x ∈ d.staleFields, x.2.name ∈ t.names := fun x hx =>
    hperm.mem_iff.1 ((staleFields_names d).subset (List.mem_map_of_mem hx))
  rcases (Table.mem_fields_storeFields hn hsub hnodup).1 hf with ⟨x, hx, rfl⟩ | ⟨hf, hnew⟩
  · obtain ⟨q, hq, hs, e⟩ := mem_staleFields.1 hx
    obtain ⟨j, g, hg, hgname, ho⟩ := origin_of_sameTags h (List.mem_of_getElem? hq)
    rw [e]
    exact ⟨x.1, q, _, g, hq, rfl, ho, hg, hgname, by rw [if_pos hs]⟩
  · have hmem : f.name ∈ d.table.names := hperm.mem_iff.2 (List.mem_map_of_mem hf)
    rw [Table.names, table, fields, List.map_map] at hmem
    obtain ⟨q, hq, hqname⟩ := List.mem_map.1 hmem
    have hqname : q.field.name = f.name := hqname
    obtain ⟨i, hi⟩ := List.mem_iff_getElem?.1 hq
    obtain ⟨j, g, hg, hgname, ho⟩ := origin_of_sameTags h hq
    have hgf : g = f := List.inj_on_of_nodup_map hn.names_nodup (List.mem_of_getElem? hg) hf
      (hgname.trans hqname)
    have hs : d.isStale i q = false := by
      by_contra hs
      have hstale : (i, q.field) ∈ d.staleFields :=
        mem_staleFields.2 ⟨q, hi, by simpa using hs, rfl⟩
      exact hnew _ hstale hqname.symm
    refine ⟨i, q, _, g, hi, hqname, ho, hg, hgname.trans hqname, ?_⟩
    rw [hs, if_neg (by simp), hgf]

/-- Edits that need neither a rebuild nor extended data keep all extended properties. -/
theorem extendedValue?_of_edited {actions : List Action} {l : List Planned} {r : Reduction}
    (hplan : planAll actions = .ok l) (hreduce : Reduction.of l = .ok r)
    (hphysical : r.requirements.physical = false) (hextended : r.requirements.extended = false)
    (hd : Alteration.edited t r.ordered = .ok d) {q : Row} (hq : q ∈ d.rows) {o : Origin}
    (ho : q.origin = some o) {g : Field} (hg : t.fields[o.position]? = some g) {p : Property}
    (hp : p.requirements.extended) : q.field.extendedValue? p = g.extendedValue? p := by
  obtain ⟨d0, h0, -, rfl⟩ := Alteration.edited_eq_ok hd
  obtain ⟨f, hf, -, hvalue⟩ := (keepsUntouched_of t).applyAll h0 q hq o ho
  rw [hg] at hf
  cases hf
  refine hvalue p fun e he _ => ?_
  exact Action.touches_of_requirements (Reduction.requirements_of_mem hplan hreduce e he)
    (Reduction.extended_of_mem hextended he) (Reduction.physical_of_mem hphysical he) hp

end Draft

namespace Commits

variable {settings : Settings} {t : Table} {r : Reduction} {db db' : Database} {o : Outcome}
  {table : String}

theorem withoutTables_eq (h : Commits settings t r db o db') :
    ∃ c, db'.withoutTables = { db.withoutTables with catalog := c } := by
  cases h with
  | idle _ _ hw => exact ⟨db.catalog, hw⟩
  | inPlace _ _ _ _ hw => exact ⟨_, hw⟩
  | rebuild _ _ _ hw => exact ⟨_, hw⟩

theorem answersFromCatalog (h : Commits settings t r db o db') (hdb : db.AnswersFromCatalog) :
    db'.AnswersFromCatalog := by
  obtain ⟨c, hw⟩ := h.withoutTables_eq
  exact ⟨(congrArg Database.occupiedFirst hw).trans hdb.1,
    (congrArg Database.knownFirst hw).trans hdb.2⟩

section Extended

variable (h : Commits settings t r db o db') (hs : settings.storeExtendedSchema)
  (ho : o.strategy = Strategy.for? r.requirements) (hname : Text.sameName t.name table)
include h ho

/-- What needs no extended data and no rebuild leaves the extended data alone. -/
theorem extended_eq (hw : r.requirements.writesExtended = false) :
    db'.catalog.extended = db.catalog.extended := by
  obtain ⟨hphysical, hextended⟩ := Bool.or_eq_false_iff.1 hw
  cases h with
  | idle _ _ hdb => exact congrArg Catalog.extended (Database.catalog_of_withoutTables hdb)
  | @inPlace d c _ _ _ hc hdb =>
    have hcatalog := Database.catalog_of_written hdb
    rw [hcatalog, hextended, Bool.false_and, if_neg (by simp)]
    exact Catalog.extended_storeFields? hc
  | rebuild hrebuild =>
    rw [Strategy.physical_of_rebuild (ho.symm.trans hrebuild)] at hphysical
    cases hphysical

include hs hname

/-- Otherwise they become those of the edited definition. -/
theorem extended_written (hkeeps : r.requirements.physical = false →
      ∀ q ∈ r.ordered, q.action.KeepsNames) (hw : r.requirements.writesExtended) :
    ∃ d, Alteration.edited t r.ordered = .ok d ∧
      ∀ f ∈ d.fields, ∀ p, db'.catalog.AgreesOn table f p := by
  cases h with
  | idle hnone =>
    have hr := Strategy.eq_none_of_idle (ho.symm.trans hnone)
    rw [hr] at hw
    cases hw
  | @inPlace d c hinPlace hd _ hc hdb =>
    have hphysical := Strategy.physical_of_inPlace (ho.symm.trans hinPlace)
    have hextended : r.requirements.extended = true := by
      unfold Requirements.writesExtended at hw
      rwa [hphysical, Bool.false_or] at hw
    have hcatalog := Database.catalog_of_written hdb
    rw [hextended, hs, Bool.true_and, if_pos rfl] at hcatalog
    obtain ⟨hn, htags⟩ := Alteration.sameTags_of_edited (hkeeps hphysical) hd
    refine ⟨d, hd, fun f hf p => ?_⟩
    rw [Catalog.AgreesOn, hcatalog]
    have hd0 : d.name = t.name := htags.name
    refine Catalog.extendedValue?_storeExtended c hn ?_ hf p
    rw [← hd0] at hname
    exact hname
  | @rebuild d _ hd _ hdb =>
    have hcatalog := Database.catalog_of_written hdb
    rw [if_pos hs] at hcatalog
    obtain ⟨d0, h0, hn, rfl⟩ := Alteration.edited_eq_ok hd
    refine ⟨_, hd, fun f hf p => ?_⟩
    rw [Catalog.AgreesOn, hcatalog]
    exact Catalog.extendedValue?_storeExtended _ (t := { d0.table with name := t.name })
      hn hname hf p

end Extended

/-- The definition that an edit in place leaves in the catalog. -/
theorem agreement_of_stored {actions : List Action} {l : List Planned} {d : Draft}
    {before after : Catalog} (hplan : planAll actions = .ok l) (hreduce : Reduction.of l = .ok r)
    (hphysical : r.requirements.physical = false) (hd : Alteration.edited t r.ordered = .ok d)
    (hkept : r.requirements.writesExtended = false → after.extended = before.extended)
    (hwritten : r.requirements.writesExtended → ∃ d, Alteration.edited t r.ordered = .ok d ∧
      ∀ f ∈ d.fields, ∀ p, after.AgreesOn table f p)
    {f : Field} (hf : f ∈ (t.storeFields d.staleFields).fields) {p : Property}
    (hp : p.requirements.extended) : Agreement t r table before after f p := by
  obtain ⟨hn, htags⟩ :=
    Alteration.sameTags_of_edited (Reduction.keepsNames hplan hreduce hphysical) hd
  obtain ⟨i, q, origin, g, hi, hqname, horigin, hg, hgname, hfield⟩ :=
    Draft.row_of_stored hn htags hf
  have hq : q ∈ d.rows := List.mem_of_getElem? hi
  unfold Agreement
  rw [hphysical, if_neg (by simp)]
  cases hw : r.requirements.extended with
  | true =>
    obtain ⟨d', hd', hagree⟩ := hwritten (by rw [Requirements.writesExtended, hw, Bool.or_true])
    rw [hd] at hd'
    cases hd'
    have hrow := hagree q.field (List.mem_map_of_mem hq) p
    refine ⟨d, i, q, origin, g, hd, hi, hqname, horigin, hg, ?_⟩
    rw [Catalog.AgreesOn] at hrow ⊢
    rw [← hqname, hrow, hfield]
    cases d.isStale i q <;> simp [eq_comm]
  | false =>
    have hnone : r.requirements.writesExtended = false := by
      rw [Requirements.writesExtended, hphysical, hw]
      rfl
    refine ⟨g, List.mem_of_getElem? hg, hgname, ?_⟩
    -- nothing is written, and whether the row is stored makes no difference
    have hvalue : f.extendedValue? p = g.extendedValue? p := by
      rw [hfield]
      split
      · exact Draft.extendedValue?_of_edited hplan hreduce hphysical hw hd hq horigin hg hp
      · rfl
    rw [Catalog.AgreesOn, Catalog.AgreesOn, hvalue, hgname,
      Catalog.extendedValue?_congr (hkept hnone)]

/-- The definition that a commit leaves in the catalog. -/
theorem agreement {actions : List Action} {l : List Planned}
    (h : Commits settings t r db o db') (hs : settings.storeExtendedSchema)
    (ho : o.strategy = Strategy.for? r.requirements)
    (ht : db.catalog.table? table = some t) (hplan : planAll actions = .ok l)
    (hreduce : Reduction.of l = .ok r) :
    ∃ t', db'.catalog.table? table = some t' ∧
      ∀ f ∈ t'.fields, ∀ p, p.requirements.extended →
        Agreement t r table db.catalog db'.catalog f p := by
  have hkeeps := Reduction.keepsNames hplan hreduce
  have hkept := h.extended_eq ho
  have hwritten := h.extended_written hs ho (Catalog.sameName_of_table? ht) hkeeps
  have hkey := Catalog.fold_name_of_table? ht
  cases h with
  | idle hnone _ hdb =>
    have hr := Strategy.eq_none_of_idle (ho.symm.trans hnone)
    have hcatalog := Database.catalog_of_withoutTables hdb
    refine ⟨t, by rw [hcatalog, ht], fun f hf p _ => ?_⟩
    unfold Agreement
    rw [hr, if_neg (by decide), if_neg (by decide)]
    exact ⟨f, hf, rfl, by rw [hcatalog]⟩
  | @rebuild d hrebuild hd _ hdb =>
    have hphysical := Strategy.physical_of_rebuild (ho.symm.trans hrebuild)
    obtain ⟨d', hd', hagree⟩ := hwritten (by rw [Requirements.writesExtended, hphysical]; rfl)
    rw [hd] at hd'
    cases hd'
    refine ⟨{ d.table with name := t.name }, ?_, fun f hf p _ => ?_⟩
    · rw [Database.catalog_of_written hdb, if_pos hs, Catalog.table?, ← hkey]
      exact Dict.get?_insert_self ..
    · unfold Agreement
      rw [if_pos hphysical]
      exact hagree f hf p
  | @inPlace d c hinPlace hd _ hc hdb =>
    have hphysical := Strategy.physical_of_inPlace (ho.symm.trans hinPlace)
    obtain ⟨-, htags⟩ := Alteration.sameTags_of_edited (hkeeps hphysical) hd
    have hd0 : d.name = t.name := htags.name
    rw [hd0] at hc
    have hstored := Catalog.table?_storeFields?_name ht hc
    refine ⟨t.storeFields d.staleFields, ?_, fun f hf p hp =>
      agreement_of_stored hplan hreduce hphysical hd hkept hwritten hf hp⟩
    rw [Database.catalog_of_written hdb]
    split <;> exact hstored

/-- The edited definition of a successful commit. -/
theorem draft {actions : List Action} {l : List Planned} (h : Commits settings t r db o db')
    (ho : o.strategy = Strategy.for? r.requirements) (hplan : planAll actions = .ok l)
    (hreduce : Reduction.of l = .ok r) :
    ∃ d, (Draft.of t).applyAll r.ordered = .ok d ∧ o.table.map Table.fields = some d.fields := by
  cases h with
  | idle hnone ht =>
    have hr := Strategy.eq_none_of_idle (ho.symm.trans hnone)
    refine ⟨Draft.of t, by rw [Reduction.ordered_eq_nil hplan hreduce hr]; rfl, ?_⟩
    rw [ht, Draft.fields_of]
    rfl
  | inPlace _ hd ht | rebuild _ hd ht =>
    obtain ⟨d0, h0, -, rfl⟩ := Alteration.edited_eq_ok hd
    exact ⟨d0, h0, by rw [ht]; rfl⟩

/-- A commit keeps the extended values that it does not touch, if it does not write them or the
definition has them. -/
theorem kept_iff {actions : List Action} {l : List Planned} {d : Draft}
    (h : Commits settings t r db o db') (hs : settings.storeExtendedSchema)
    (ho : o.strategy = Strategy.for? r.requirements) (hname : Text.sameName t.name table)
    (hplan : planAll actions = .ok l) (hreduce : Reduction.of l = .ok r)
    (hd : (Draft.of t).applyAll r.ordered = .ok d) {q : Row} (hq : q ∈ d.rows) {c : Origin}
    (hc : q.origin = some c) {p : Property}
    (htouch : ∀ a ∈ actions, q.uid = some a.uid → a.touches p = false) :
    ∃ f, t.fields[c.position]? = some f ∧ f.name = c.column ∧
      (db'.catalog.extendedValue? table q.field.name p =
          db.catalog.extendedValue? table c.column p ↔
        (r.requirements.writesExtended → db.catalog.AgreesOn table f p)) := by
  have hkeeps := Reduction.keepsNames hplan hreduce
  obtain ⟨f, hf, hfname, hvalue⟩ := (Draft.keepsUntouched_of t).applyAll hd q hq c hc
  have hvalue : q.field.extendedValue? p = f.extendedValue? p := by
    refine hvalue p fun e he hu => ?_
    -- what remains of an edit touches what the submitted one does
    obtain ⟨e', he', hbare⟩ := Reduction.bare_of_mem_ordered hreduce he
    rw [Action.touches_of_bare (congrArg Planned.action hbare) p]
    refine htouch e'.action ?_ ?_
    · rw [← planAll_actions hplan]
      exact List.mem_map_of_mem he'
    · rw [hu, Planned.uid_of_bare hbare]
      rfl
  refine ⟨f, hf, hfname, ?_⟩
  cases hw : r.requirements.writesExtended with
  | true =>
    obtain ⟨d', hd', hagree⟩ := h.extended_written hs ho hname hkeeps hw
    obtain ⟨d0, h0, -, rfl⟩ := Alteration.edited_eq_ok hd'
    rw [hd] at h0
    cases h0
    have hrow := hagree q.field (List.mem_map_of_mem hq) p
    rw [Catalog.AgreesOn, hvalue] at hrow
    rw [hrow, Catalog.AgreesOn, hfname]
    simp [eq_comm]
  | false =>
    have hphysical := (Bool.or_eq_false_iff.1 hw).1
    have htags := Draft.sameTags_of_applyAll (hkeeps hphysical) hd
    obtain ⟨i, g, -, hgname, horigin⟩ := Draft.origin_of_sameTags htags hq
    rw [hc] at horigin
    cases horigin
    rw [← hgname, Catalog.extendedValue?_congr (h.extended_eq ho hw)]
    simp

end Commits

/-- Of two commits the second keeps an extended value that it does not touch exactly if it writes no
extended data or the first has left the value in the definition as well. -/
theorem Alteration.extended_kept_iff {first second : Alteration} {table : String} {t : Table}
    {w w1 w2 : World} {o1 o2 : Outcome}
    (h1 : first.execute table .commit w = (.ok o1, w1))
    (h2 : second.execute table .commit w1 = (.ok o2, w2))
    (hs1 : first.settings.storeExtendedSchema) (hs2 : second.settings.storeExtendedSchema)
    (hw : w.database.AnswersFromCatalog) (ht : w.database.catalog.table? table = some t) :
    ∃ l1 r1 l2 r2 t1 d, planAll first.actions = .ok l1 ∧ Reduction.of l1 = .ok r1 ∧
      planAll second.actions = .ok l2 ∧ Reduction.of l2 = .ok r2 ∧
      w1.database.catalog.table? table = some t1 ∧
      (Draft.of t1).applyAll r2.ordered = .ok d ∧ o2.table.map Table.fields = some d.fields ∧
      ∀ q ∈ d.rows, ∀ c, q.origin = some c → ∀ p, p.requirements.extended →
        (∀ a ∈ second.actions, q.uid = some a.uid → a.touches p = false) →
          ∃ f, t1.fields[c.position]? = some f ∧ f.name = c.column ∧
            (w2.database.catalog.extendedValue? table q.field.name p =
                w1.database.catalog.extendedValue? table c.column p ↔
              (r2.requirements.writesExtended → w1.database.catalog.AgreesOn table f p)) ∧
            Agreement t r1 table w.database.catalog w1.database.catalog f p := by
  obtain ⟨t', l1, r1, ⟨db, hlookup⟩, hplan1, hreduce1, ho1, hcommits1⟩ := execute_eq_ok h1
  have ht' := tableSchema_eq_catalog hw hlookup
  rw [ht] at ht'
  cases ht'
  obtain ⟨t1, ht1, hagreement⟩ := hcommits1.agreement hs1 ho1 ht hplan1 hreduce1
  obtain ⟨t', l2, r2, ⟨db, hlookup⟩, hplan2, hreduce2, ho2, hcommits2⟩ := execute_eq_ok h2
  have ht' := tableSchema_eq_catalog (hcommits1.answersFromCatalog hw) hlookup
  rw [ht1] at ht'
  cases ht'
  obtain ⟨d, hd, hfields⟩ := hcommits2.draft ho2 hplan2 hreduce2
  refine ⟨l1, r1, l2, r2, t1, d, hplan1, hreduce1, hplan2, hreduce2, ht1, hd, hfields, ?_⟩
  intro q hq c hc p hp htouch
  obtain ⟨f, hf, hfname, hkept⟩ :=
    hcommits2.kept_iff hs2 ho2 (Catalog.sameName_of_table? ht1) hplan2 hreduce2 hd hq hc htouch
  exact ⟨f, hf, hfname, hkept, hagreement f (List.mem_of_getElem? hf) p hp⟩

def twoColumns : World where
  database := ({} : Database).withTable
    ⟨"t", [{ name := "a", type := .integer }, { name := "b", type := .integer }], []⟩
  clock := newYear
  suffixes := fun _ => 0

def sourceOfA : Alteration := { actions := [.change ⟨1⟩ "a" "rowSource" (.text "x")] }

def widthOfB : Alteration := { actions := [.change ⟨2⟩ "b" "defaultWidth" (.int 5)] }

/-- The world after the source of `a` is set. -/
def sourceSet : World := (sourceOfA.execute "t" .commit twoColumns).2

theorem Alteration.extended_kept_iff_of_two_fields :
    ∃ o1 o2 w2, sourceOfA.execute "t" .commit twoColumns = (.ok o1, sourceSet) ∧
      widthOfB.execute "t" .commit sourceSet = (.ok o2, w2) ∧
      ∃ t1 r2 d, sourceSet.database.catalog.table? "t" = some t1 ∧
        (Draft.of t1).applyAll (Reduction.ordered r2) = .ok d ∧
        o2.table.map Table.fields = some d.fields ∧
        ∀ q ∈ d.rows, ∀ c, q.origin = some c →
          ∃ f, t1.fields[c.position]? = some f ∧ f.name = c.column ∧
            (w2.database.catalog.extendedValue? "t" q.field.name (.lookup .rowSource) =
                sourceSet.database.catalog.extendedValue? "t" c.column (.lookup .rowSource) ↔
              (r2.requirements.writesExtended →
                sourceSet.database.catalog.AgreesOn "t" f (.lookup .rowSource))) := by
  have hfirst : (sourceOfA.execute "t" .commit twoColumns).1.map (·.strategy) =
      .ok (some .inPlace) := by decide +kernel
  have hsecond : (widthOfB.execute "t" .commit sourceSet).1.map (·.strategy) =
      .ok (some .inPlace) := by decide +kernel
  obtain ⟨o1, ho1, -⟩ := map_eq_ok.1 hfirst
  obtain ⟨o2, ho2, -⟩ := map_eq_ok.1 hsecond
  have hrun1 := Run.eq_of_fst ho1
  have hrun2 := Run.eq_of_fst ho2
  obtain ⟨l1, r1, l2, r2, t1, d, -, -, -, -, ht1, hd, hfields, hall⟩ :=
    extended_kept_iff hrun1 hrun2 rfl rfl ⟨rfl, rfl⟩ rfl
  refine ⟨o1, o2, _, hrun1, hrun2, t1, r2, d, ht1, hd, hfields, fun q hq c hc => ?_⟩
  have htouch : ∀ a ∈ widthOfB.actions, a.touches (.lookup .rowSource) = false := by decide
  obtain ⟨f, hf, hname, hkept, -⟩ :=
    hall q hq c hc (.lookup .rowSource) rfl fun a ha _ => htouch a ha
  exact ⟨f, hf, hname, hkept⟩

/-- The source of the first field is lost when the width of the second one is set. -/
theorem Alteration.extended_value_lost :
    ∃ o1 o2 w2, sourceOfA.execute "t" .commit twoColumns = (.ok o1, sourceSet) ∧
      widthOfB.execute "t" .commit sourceSet = (.ok o2, w2) ∧
      (∀ a ∈ widthOfB.actions, a.touches (.lookup .rowSource) = false ∧ a.isRemoval = false) ∧
      o2.table.map Table.names = some ["a", "b"] ∧
      sourceSet.database.catalog.extendedValue? "t" "a" (.lookup .rowSource) = some (.text "x") ∧
      w2.database.catalog.extendedValue? "t" "a" (.lookup .rowSource) = none := by
  have hfirst : (sourceOfA.execute "t" .commit twoColumns).1.map (·.strategy) =
      .ok (some .inPlace) := by decide +kernel
  have hsecond : (widthOfB.execute "t" .commit sourceSet).1.map
      (fun o => o.table.map Table.names) = .ok (some ["a", "b"]) := by decide +kernel
  obtain ⟨o1, ho1, -⟩ := map_eq_ok.1 hfirst
  obtain ⟨o2, ho2, hnames⟩ := map_eq_ok.1 hsecond
  refine ⟨o1, o2, _, Run.eq_of_fst ho1, Run.eq_of_fst ho2, by decide, hnames, ?_, ?_⟩
  · decide +kernel
  · decide +kernel

end TableAlteration
