import TableAlteration.CopyPlan
import TableAlteration.Proofs.Edit.Lineage

namespace TableAlteration

/-- If one element alone is kept, it is the one at its position. -/
theorem filter_filterMap_eq_singleton {α β : Type} {f : α → Option β} {s : β → Bool} {l : List α}
    {j : Nat} {a : α} {b : β} (ha : l[j]? = some a) (hb : f a = some b) (hs : s b)
    (hone : ∀ k x y, l[k]? = some x → f x = some y → s y → k = j) :
    (l.filterMap f).filter s = [b] := by
  induction l generalizing j with
  | nil => cases ha
  | cons x l ih =>
    cases j with
    | zero =>
      cases ha
      have hrest : (l.filterMap f).filter s = [] := by
        refine List.filter_eq_nil_iff.2 fun y hy hsy => ?_
        obtain ⟨z, hz, hfz⟩ := List.mem_filterMap.1 hy
        obtain ⟨k, hk⟩ := List.mem_iff_getElem?.1 hz
        cases hone (k + 1) z y hk hfz hsy
      rw [List.filterMap_cons, hb, List.filter_cons, if_pos hs, hrest]
    | succ j =>
      have hrest := ih ha fun k x y hk hx hy => Nat.succ.inj (hone (k + 1) x y hk hx hy)
      rw [List.filterMap_cons]
      cases hx : f x with
      | none => exact hrest
      | some y =>
        have hy : ¬ s y := fun hy => by cases hone 0 x y rfl hx hy
        simp only
        rw [List.filter_cons, if_neg hy, hrest]

/-- The column of the old table that is read. -/
def CopySource.column? : CopySource → Option String
  | .column name => some name
  | _ => none

/-- Whether the values come from the old table's column with that name, whatever its case. -/
def CopyColumn.reads (c : CopyColumn) (name : String) : Bool :=
  c.source.column?.any fun n => Text.sameName n name

namespace CopyPlan

variable {clock : Clock} {f : Field} {o : Option String} {c : CopyColumn}

theorem column?_eq_some (h : column? clock f o = some c) :
    c.destination = f.name ∧ c.source.column? = o := by
  obtain ⟨s, hs, rfl⟩ := Option.map_eq_some_iff.1 h
  refine ⟨rfl, ?_⟩
  unfold source? at hs
  cases o with
  | some name =>
    cases hs
    rfl
  | none =>
    simp only at hs
    split at hs
    · cases hs
    · split at hs
      · cases hs
        rfl
      · split at hs
        · cases hs
          rfl
        · split at hs
          · cases hs
            rfl
          · cases hs

/-- An inserted field is left to the database if it assigns the values itself or null will do. -/
theorem column?_eq_none (clock : Clock) (f : Field) : column? clock f none = none ↔
    f.constraints.autoIncrement ∨
      f.default = none ∧ f.constraints.notNull = false ∧ f.constraints.notEmpty = false := by
  rw [column?, Option.map_eq_none_iff, source?]
  cases f.constraints.autoIncrement <;> cases f.default <;> cases f.constraints.notNull <;>
    cases f.constraints.notEmpty <;> simp

end CopyPlan

/-- The plan fills the new table from the old one. -/
structure CopyPlan.Faithful (old new : Table) (g : Ledger) (plan : CopyPlan) : Prop where
  distinct : (plan.columns.map fun c => Text.fold c.destination).Nodup
  ordered : (plan.columns.map (·.destination)).Sublist new.names
  /-- A field of the old table that is not removed is filled from its own column, and no other
  field is. -/
  kept : ∀ i f, old.fields[i]? = some f → i ∉ g.removed →
    ∃ (j : Nat) (f' : Field), g.kept[j]? = some i ∧ new.fields[j]? = some f' ∧
      plan.columns.filter (·.reads f.name) = [⟨f'.name, f'.type, .column f.name⟩]
  removed : ∀ i f, old.fields[i]? = some f → i ∈ g.removed →
    ∀ c ∈ plan.columns, c.reads f.name = false
  inserted : ∀ (i j : Nat) (f' : Field), old.fields.length ≤ i → g.kept[j]? = some i → new.fields[j]? = some f' →
    ∀ c ∈ plan.columns, Text.sameName c.destination f'.name → c.source.column? = none
  leftOut : ∀ (i j : Nat) (f' : Field), old.fields.length ≤ i → g.kept[j]? = some i → new.fields[j]? = some f' →
    ((∀ c ∈ plan.columns, Text.sameName c.destination f'.name = false) ↔
      f'.constraints.autoIncrement ∨
        f'.default = none ∧ f'.constraints.notNull = false ∧ f'.constraints.notEmpty = false)
  skipped : plan.isEmpty → ∀ i < old.fields.length, i ∈ g.removed

section Plans

variable {t : Table} {d e : Draft} {g : Ledger} {l : List Planned} {clock : Clock}
  {source destination : String} {c : CopyColumn} {i j : Nat} {r : Row} {f : Field}

/-- The column of the plan for a row. -/
def Row.column? (clock : Clock) (r : Row) : Option CopyColumn :=
  CopyPlan.column? clock r.field (r.origin.map (·.column))

theorem Draft.columns_copyPlan :
    (d.copyPlan clock source destination).columns = d.rows.filterMap (Row.column? clock) := by
  rw [copyPlan, CopyPlan.build, List.filterMap_map]
  rfl

theorem Draft.mem_columns (h : c ∈ (d.copyPlan clock source destination).columns) :
    ∃ (j : Nat) (r : Row), d.rows[j]? = some r ∧ r.column? clock = some c := by
  rw [columns_copyPlan] at h
  obtain ⟨r, hr, hc⟩ := List.mem_filterMap.1 h
  obtain ⟨j, hj⟩ := List.mem_iff_getElem?.1 hr
  exact ⟨j, r, hj, hc⟩

theorem Draft.columns_sublist (d : Draft) (clock : Clock) (source destination : String) :
    ((d.copyPlan clock source destination).columns.map (·.destination)).Sublist d.table.names := by
  have hnames : d.table.names = d.rows.map (·.field.name) := by
    rw [Table.names, table, fields, List.map_map]
    rfl
  rw [columns_copyPlan, hnames]
  induction d.rows with
  | nil => exact .slnil
  | cons r rows ih =>
    rw [List.filterMap_cons, List.map_cons]
    cases hc : r.column? clock with
    | none => exact ih.cons _
    | some c =>
      rw [List.map_cons, (CopyPlan.column?_eq_some hc).1]
      exact ih.cons_cons _

namespace Ledger.Accounts

/-- A row that is filled from a column of the old table is the row of that column's field. -/
theorem number_of_reads (h : Accounts t d g) (hn : t.NamesDistinct) (hr : d.rows[j]? = some r)
    (hc : r.column? clock = some c) (hf : t.fields[i]? = some f) (hreads : c.reads f.name) :
    g.kept[j]? = some i := by
  obtain ⟨k, hk, ho⟩ := h.origin_of_kept hr
  unfold CopyColumn.reads at hreads
  rw [(CopyPlan.column?_eq_some hc).2, ho, Table.originAt] at hreads
  cases hfk : t.fields[k]? with
  | none => simp [hfk] at hreads
  | some f' =>
    rw [hfk] at hreads
    rw [hk, hn.eq_of_sameName hfk hf hreads]

theorem filter_reads (h : Accounts t d g) (hn : t.NamesDistinct) (hf : t.fields[i]? = some f)
    (hi : i ∉ g.removed) :
    ∃ (j : Nat) (r : Row), g.kept[j]? = some i ∧ d.rows[j]? = some r ∧
      (d.copyPlan clock source destination).columns.filter (·.reads f.name) =
        [⟨r.field.name, r.field.type, .column f.name⟩] := by
  have hlt : i < t.fields.length := (List.getElem?_eq_some_iff.1 hf).1
  obtain ⟨j, hj⟩ := List.mem_iff_getElem?.1 ((h.mem_kept_iff hlt).2 hi)
  obtain ⟨r, hr⟩ : ∃ r, d.rows[j]? = some r := by
    refine ⟨_, List.getElem?_eq_getElem ?_⟩
    rw [h.length_rows]
    exact (List.getElem?_eq_some_iff.1 hj).1
  have ho : r.origin = some ⟨f.name, i⟩ := by
    obtain ⟨k, hk, ho⟩ := h.origin_of_kept hr
    rw [hj] at hk
    cases hk
    rw [ho, Table.originAt, hf]
    rfl
  have hc : r.column? clock = some ⟨r.field.name, r.field.type, .column f.name⟩ := by
    rw [Row.column?, ho]
    rfl
  refine ⟨j, r, hj, hr, ?_⟩
  rw [Draft.columns_copyPlan]
  refine filter_filterMap_eq_singleton hr hc (Text.sameName_refl f.name) ?_
  intro k x y hx hy hreads
  have hk := h.number_of_reads hn hx hy hf hreads
  exact (List.getElem?_inj (List.getElem?_eq_some_iff.1 hk).1 h.kept_nodup).1 (hk.trans hj.symm)

/-- The row of an inserted field has no column of the old table. -/
theorem origin_of_inserted (h : Accounts t d g) (hi : t.fields.length ≤ i)
    (hk : g.kept[j]? = some i) (hr : d.rows[j]? = some r) : r.origin = none := by
  obtain ⟨k, hk', ho⟩ := h.origin_of_kept hr
  rw [hk] at hk'
  cases hk'
  rw [ho, Table.originAt, List.getElem?_eq_none hi]
  rfl

end Ledger.Accounts

theorem Draft.rows_of_fields (h : d.table.fields[j]? = some f) :
    ∃ r : Row, d.rows[j]? = some r ∧ r.field = f := by
  rw [table, fields, List.getElem?_map, Option.map_eq_some_iff] at h
  exact h

/-- A column of the plan belongs to the row that has its destination as its name. -/
theorem Draft.column_of_destination (hn : d.table.NamesDistinct) (hr : d.rows[j]? = some r)
    (hc : c ∈ (d.copyPlan clock source destination).columns)
    (hname : Text.sameName c.destination r.field.name) : r.column? clock = some c := by
  obtain ⟨k, q, hq, hqc⟩ := mem_columns hc
  have hfields : ∀ {k : Nat} {q : Row}, d.rows[k]? = some q →
      d.table.fields[k]? = some q.field := by
    intro k q hq
    rw [table, fields, List.getElem?_map, hq]
    rfl
  rw [(CopyPlan.column?_eq_some hqc).1] at hname
  obtain rfl := hn.eq_of_sameName (hfields hq) (hfields hr) hname
  rw [hq] at hr
  cases hr
  exact hqc

theorem Draft.leftOut_iff (hn : d.table.NamesDistinct) (hr : d.rows[j]? = some r) :
    (∀ c ∈ (d.copyPlan clock source destination).columns,
      Text.sameName c.destination r.field.name = false) ↔ r.column? clock = none := by
  constructor
  · intro hall
    cases hc : r.column? clock with
    | none => rfl
    | some c =>
      have hmem : c ∈ (d.copyPlan clock source destination).columns := by
        rw [columns_copyPlan]
        exact List.mem_filterMap.2 ⟨r, List.mem_of_getElem? hr, hc⟩
      have hno := hall c hmem
      rw [(CopyPlan.column?_eq_some hc).1, Text.sameName_refl] at hno
      cases hno
  · intro hnone c hc
    by_contra hname
    have hc := column_of_destination hn hr hc (by simpa using hname)
    rw [hnone] at hc
    cases hc

theorem Draft.destinations_nodup (hn : d.table.NamesDistinct) (clock : Clock)
    (source destination : String) :
    ((d.copyPlan clock source destination).columns.map fun c => Text.fold c.destination).Nodup := by
  have hfold : (d.table.names.map Text.fold).Nodup := by
    rw [Table.names, List.map_map]
    exact hn
  have hsub := (d.columns_sublist clock source destination).map Text.fold
  rw [List.map_map] at hsub
  exact hfold.sublist hsub

theorem Ledger.Accounts.faithful (h : Accounts t d g) (hn : t.NamesDistinct)
    (hd : d.table.NamesDistinct) (clock : Clock) (source destination : String) :
    CopyPlan.Faithful t d.table g (d.copyPlan clock source destination) := by
  have hfields : ∀ {j : Nat} {r : Row}, d.rows[j]? = some r →
      d.table.fields[j]? = some r.field := by
    intro j r hr
    rw [Draft.table, Draft.fields, List.getElem?_map, hr]
    rfl
  refine ⟨d.destinations_nodup hd clock source destination, d.columns_sublist clock source
    destination, fun i f hf hi => ?_, fun i f hf hi c hc => ?_,
    fun i j f' hi hj hf' c hc hname => ?_, fun i j f' hi hj hf' => ?_, fun hempty i hi => ?_⟩
  · obtain ⟨j, r, hj, hr, hplan⟩ := h.filter_reads hn hf hi
    exact ⟨j, r.field, hj, hfields hr, hplan⟩
  · obtain ⟨j, r, hr, hrc⟩ := Draft.mem_columns hc
    by_contra hreads
    have hj := h.number_of_reads hn hr hrc hf (by simpa using hreads)
    exact List.disjoint_of_nodup_append h.nodup (List.mem_of_getElem? hj) hi
  · obtain ⟨r, hr, rfl⟩ := Draft.rows_of_fields hf'
    have hrc := Draft.column_of_destination hd hr hc hname
    rw [(CopyPlan.column?_eq_some hrc).2, h.origin_of_inserted hi hj hr]
    rfl
  · obtain ⟨r, hr, rfl⟩ := Draft.rows_of_fields hf'
    have hcolumn : r.column? clock = CopyPlan.column? clock r.field none := by
      rw [Row.column?, h.origin_of_inserted hi hj hr]
      rfl
    rw [← CopyPlan.column?_eq_none clock, ← hcolumn]
    exact Draft.leftOut_iff hd hr
  · by_contra hkept
    obtain ⟨j, r, -, -, hplan⟩ := h.filter_reads hn (List.getElem?_eq_getElem hi) hkept
    rw [List.isEmpty_iff.1 hempty] at hplan
    cases hplan

/-- However the edits are mixed, the plan neither loses nor repeats a column. -/
theorem Draft.copyPlan_faithful (hn : t.NamesDistinct) (hd : (Draft.of t).applyAll l = .ok d)
    (he : d.finish = .ok e) (clock : Clock) (source destination : String) :
    CopyPlan.Faithful t e.table ((Ledger.of t).trace (Draft.of t) l)
      (e.copyPlan clock source destination) := by
  have h := ((Ledger.Accounts.of_table t).applyAll hd).finish he
  have hdistinct : e.table.NamesDistinct := by
    obtain ⟨hdistinct, rfl⟩ := Draft.finish_eq_ok.1 he
    exact hdistinct
  exact h.faithful hn hdistinct clock source destination

/-- Two names are exchanged, a field is removed, and its name is used again. -/
theorem Draft.copyPlan_faithful_of_exchange :
    ∃ d e, (Draft.of ⟨"t", [{ name := "a", type := .integer }, { name := "b", type := .text },
          { name := "c", type := .date }], []⟩).applyAll
        [⟨0, {}, .rename ⟨0⟩ "a" "x"⟩, ⟨1, {}, .rename ⟨1⟩ "b" "a"⟩,
          ⟨2, {}, .rename ⟨0⟩ "x" "b"⟩, ⟨3, {}, .remove ⟨2⟩ "c"⟩,
          ⟨4, {}, .insert ⟨3⟩ 0 { name := "c", type := .byte, constraints := { notNull := true } }⟩,
          ⟨5, {}, .move ⟨0⟩ "b" 9⟩, ⟨6, {}, .insert ⟨4⟩ 1 { name := "d", type := .date }⟩] =
        .ok d ∧
      d.finish = .ok e ∧
      CopyPlan.Faithful ⟨"t", [{ name := "a", type := .integer }, { name := "b", type := .text },
          { name := "c", type := .date }], []⟩ e.table ⟨[3, 4, 1, 0], [2]⟩
        (e.copyPlan ⟨⟨2000, 1, 1, by decide⟩, ⟨0, 0, 0, 0, by decide⟩⟩ "t" "n") ∧
      (e.copyPlan ⟨⟨2000, 1, 1, by decide⟩, ⟨0, 0, 0, 0, by decide⟩⟩ "t" "n").columns =
        [⟨"c", .byte, .empty (.int 0)⟩, ⟨"a", .text, .column "b"⟩,
          ⟨"b", .integer, .column "a"⟩] := by
  have hd : (Draft.of ⟨"t", [{ name := "a", type := .integer }, { name := "b", type := .text },
        { name := "c", type := .date }], []⟩).applyAll
      [⟨0, {}, .rename ⟨0⟩ "a" "x"⟩, ⟨1, {}, .rename ⟨1⟩ "b" "a"⟩,
        ⟨2, {}, .rename ⟨0⟩ "x" "b"⟩, ⟨3, {}, .remove ⟨2⟩ "c"⟩,
        ⟨4, {}, .insert ⟨3⟩ 0 { name := "c", type := .byte, constraints := { notNull := true } }⟩,
        ⟨5, {}, .move ⟨0⟩ "b" 9⟩, ⟨6, {}, .insert ⟨4⟩ 1 { name := "d", type := .date }⟩] =
      .ok _ := rfl
  exact ⟨_, _, hd, rfl, Draft.copyPlan_faithful (by decide) hd rfl _ _ _, rfl⟩

end Plans

end TableAlteration
