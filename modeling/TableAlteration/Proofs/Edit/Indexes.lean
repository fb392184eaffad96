import TableAlteration.Proofs.Edit.Lineage

namespace TableAlteration

namespace Ledger

/-- Whether the column is that of a field of the old table that is not removed. -/
def keeps (g : Ledger) (old : Table) (column : String) : Bool :=
  (old.fieldIndex? column).any (· ∉ g.removed)

/-- The field that had the one name in the old table has the other in the new one, and no other
field has it. -/
def Carries (g : Ledger) (old new : Table) (column name : String) : Prop :=
  ∃ i j f, old.fieldIndex? column = some i ∧ g.kept[j]? = some i ∧ new.fields[j]? = some f ∧
    f.name = name ∧ new.fieldIndex? name = some j

end Ledger

/-- An index of the old table as it is in the new one. -/
structure Index.Follows (old new : Table) (g : Ledger) (x y : Index) : Prop where
  name : y.name = x.name
  unique : y.unique = x.unique
  columns : List.Forall₂ (g.Carries old new) (x.columns.filter (g.keeps old)) y.columns

/-- The indexes follow their columns, one after another. -/
inductive Index.AllFollow (old new : Table) (g : Ledger) : List Index → List Index → Prop where
  | nil : AllFollow old new g [] []
  | kept {x y : Index} {xs ys : List Index} : x.columns.any (g.keeps old) →
      x.Follows old new g y → AllFollow old new g xs ys → AllFollow old new g (x :: xs) (y :: ys)
  | dropped {x : Index} {xs ys : List Index} : (∀ c ∈ x.columns, g.keeps old c = false) →
      AllFollow old new g xs ys → AllFollow old new g (x :: xs) ys

/-- An index of the new table is one of the old ones, and has a column. -/
theorem Index.AllFollow.of_mem {old new : Table} {g : Ledger} {xs ys : List Index}
    (h : AllFollow old new g xs ys) {y : Index} (hy : y ∈ ys) :
    ∃ x ∈ xs, x.Follows old new g y ∧ y.columns ≠ [] := by
  induction h with
  | nil => cases hy
  | @kept x y' xs ys hany hxy _ ih =>
    rcases List.mem_cons.1 hy with rfl | hy
    · refine ⟨x, List.mem_cons_self, hxy, fun hempty => ?_⟩
      obtain ⟨c, hc, hk⟩ := List.any_eq_true.1 hany
      have hnil := hempty ▸ hxy.columns
      have hmem := List.mem_filter.2 ⟨hc, hk⟩
      rw [List.forall₂_nil_right_iff.1 hnil] at hmem
      cases hmem
    · obtain ⟨x', hx', h'⟩ := ih hy
      exact ⟨x', List.mem_cons_of_mem _ hx', h'⟩
  | dropped _ _ ih =>
    obtain ⟨x', hx', h'⟩ := ih hy
    exact ⟨x', List.mem_cons_of_mem _ hx', h'⟩

/-- Mapping what can be mapped relates the list to its mappable elements. -/
theorem forall₂_filterMap {α β : Type} {R : α → β → Prop} {s : α → Bool} {f : α → Option β}
    (hs : ∀ a, (f a).isSome = s a) (hR : ∀ a b, f a = some b → R a b) (l : List α) :
    List.Forall₂ R (l.filter s) (l.filterMap f) := by
  induction l with
  | nil => exact .nil
  | cons a l ih =>
    rw [List.filterMap_cons, List.filter_cons, ← hs]
    cases hf : f a with
    | none => exact ih
    | some b => exact .cons (hR a b hf) ih

section Names

variable {t : Table} {d d' : Draft} {g : Ledger} {p : Planned} {l : List Planned} {c n : String}
  {i j : Nat} {r : Row}

theorem Draft.indexes_of_apply (h : d.apply p = .ok d') : d'.indexes = d.indexes := by
  cases apply_eq_ok.1 h <;> rfl

theorem Draft.indexes_of_applyAll (h : d.applyAll l = .ok d') : d'.indexes = d.indexes := by
  induction l generalizing d with
  | nil =>
    cases h
    rfl
  | cons p l ih =>
    obtain ⟨d1, h1, h2⟩ := foldlM_cons_eq_ok.1 h
    rw [ih h2, indexes_of_apply h1]

namespace Ledger.Accounts

/-- The row that has its data from a column is the row of that column's field. -/
theorem comesFrom_iff (h : Accounts t d g) (hn : t.NamesDistinct) (hr : d.rows[j]? = some r) :
    (r.origin.any fun o => Text.sameName o.column c) ↔
      ∃ i, t.fieldIndex? c = some i ∧ g.kept[j]? = some i := by
  obtain ⟨k, hk, ho⟩ := h.origin_of_kept hr
  rw [ho, Table.originAt, Option.any_map]
  constructor
  · intro hany
    obtain ⟨f, hf, hs⟩ := (Option.any_eq_true ..).1 hany
    exact ⟨k, hn.fieldIndex?_eq_some.2 ⟨f, hf, hs⟩, hk⟩
  · rintro ⟨i, hi, hk'⟩
    rw [hk] at hk'
    cases hk'
    obtain ⟨f, hf, hs⟩ := hn.fieldIndex?_eq_some.1 hi
    exact (Option.any_eq_true ..).2 ⟨f, hf, hs⟩

theorem finalName?_eq_some (h : Accounts t d g) (hn : t.NamesDistinct)
    (hd : d.table.NamesDistinct) (hc : d.finalName? c = some n) : g.Carries t d.table c n := by
  obtain ⟨r, hr, rfl⟩ := Option.map_eq_some_iff.1 hc
  have hmem : r ∈ d.rows := List.mem_of_find?_eq_some hr
  obtain ⟨j, hj⟩ := List.mem_iff_getElem?.1 hmem
  have hfrom := List.find?_some hr
  obtain ⟨i, hi, hk⟩ := (h.comesFrom_iff hn hj).1 hfrom
  have hf : d.table.fields[j]? = some r.field := by
    rw [Draft.table, Draft.fields, List.getElem?_map, hj]
    rfl
  exact ⟨i, j, r.field, hi, hk, hf, rfl,
    hd.fieldIndex?_eq_some.2 ⟨r.field, hf, Text.sameName_refl _⟩⟩

theorem isSome_finalName? (h : Accounts t d g) (hn : t.NamesDistinct) (c : String) :
    (d.finalName? c).isSome = g.keeps t c := by
  rw [Draft.finalName?, Option.isSome_map, Bool.eq_iff_iff, List.find?_isSome, Ledger.keeps,
    Option.any_eq_true]
  constructor
  · rintro ⟨r, hr, hfrom⟩
    obtain ⟨j, hj⟩ := List.mem_iff_getElem?.1 hr
    obtain ⟨i, hi, hk⟩ := (h.comesFrom_iff hn hj).1 hfrom
    obtain ⟨f, hf, -⟩ := hn.fieldIndex?_eq_some.1 hi
    have hlt := (List.getElem?_eq_some_iff.1 hf).1
    exact ⟨i, hi, decide_eq_true ((h.mem_kept_iff hlt).1 (List.mem_of_getElem? hk))⟩
  · rintro ⟨i, hi, hremoved⟩
    obtain ⟨f, hf, -⟩ := hn.fieldIndex?_eq_some.1 hi
    have hlt := (List.getElem?_eq_some_iff.1 hf).1
    obtain ⟨j, hj⟩ := List.mem_iff_getElem?.1 ((h.mem_kept_iff hlt).2 (of_decide_eq_true hremoved))
    have hjt : j < d.rows.length := by
      rw [h.length_rows]
      exact (List.getElem?_eq_some_iff.1 hj).1
    have hr := List.getElem?_eq_getElem hjt
    exact ⟨_, List.mem_of_getElem? hr, (h.comesFrom_iff hn hr).2 ⟨i, hi, hj⟩⟩

/-- One index: what is left of its columns, under their fields' final names. -/
theorem follows (h : Accounts t d g) (hn : t.NamesDistinct) (hd : d.table.NamesDistinct)
    (x : Index) :
    x.Follows t d.table g { x with columns := x.columns.filterMap d.finalName? } :=
  ⟨rfl, rfl, forall₂_filterMap (h.isSome_finalName? hn)
    (fun _ _ hc => h.finalName?_eq_some hn hd hc) x.columns⟩

/-- All of them: those of which nothing is left are dropped. -/
theorem allFollow (h : Accounts t d g) (hn : t.NamesDistinct) (hd : d.table.NamesDistinct)
    (xs : List Index) :
    Index.AllFollow t d.table g xs
      ((xs.map fun x => { x with columns := x.columns.filterMap d.finalName? }).filter
        fun x => !x.columns.isEmpty) := by
  induction xs with
  | nil => exact .nil
  | cons x xs ih =>
    have hany : x.columns.any (g.keeps t) = !(x.columns.filterMap d.finalName?).isEmpty := by
      rw [Bool.eq_iff_iff, List.any_eq_true, Bool.not_eq_true', List.isEmpty_eq_false_iff_exists_mem]
      simp only [List.mem_filterMap, ← h.isSome_finalName? hn, Option.isSome_iff_exists]
      exact ⟨fun ⟨c, hc, n, hcn⟩ => ⟨n, c, hc, hcn⟩, fun ⟨n, c, hc, hcn⟩ => ⟨c, hc, n, hcn⟩⟩
    rw [List.map_cons, List.filter_cons]
    split
    · rename_i hkept
      exact .kept (hany.trans hkept) (h.follows hn hd x) ih
    · rename_i hdropped
      refine .dropped (fun c hc => ?_) ih
      by_contra hk
      have hany' := List.any_eq_true.2 ⟨c, hc, by simpa using hk⟩
      exact hdropped (hany.symm.trans hany')

end Ledger.Accounts

/-- However the edits are mixed, each index stays on its fields as long as it has any, and is on
no other field. -/
theorem Draft.indexes_follow {e : Draft} (hn : t.NamesDistinct)
    (hd : (Draft.of t).applyAll l = .ok d) (he : d.finish = .ok e) :
    Index.AllFollow t e.table ((Ledger.of t).trace (Draft.of t) l) t.indexes e.table.indexes ∧
    ∀ y ∈ e.table.indexes, y.columns ≠ [] ∧
      ∀ n ∈ y.columns, ∃ c, ((Ledger.of t).trace (Draft.of t) l).Carries t e.table c n := by
  have h := ((Ledger.Accounts.of_table t).applyAll hd).finish he
  obtain ⟨hdistinct, rfl⟩ := Draft.finish_eq_ok.1 he
  have hall := h.allFollow hn hdistinct t.indexes
  rw [← show d.indexes = t.indexes from Draft.indexes_of_applyAll hd] at hall ⊢
  refine ⟨hall, fun y hy => ?_⟩
  obtain ⟨x, -, hxy, hne⟩ := hall.of_mem hy
  refine ⟨hne, fun n hmem => ?_⟩
  obtain ⟨hlen, hcarries⟩ := List.forall₂_iff_get.1 hxy.columns
  obtain ⟨k, hk, rfl⟩ := List.mem_iff_getElem.1 hmem
  exact ⟨_, hcarries k (hlen ▸ hk) hk⟩

/-- A field is removed, another one takes its name, and a new one takes that one's. -/
theorem Draft.indexes_follow_of_takeover :
    ∃ d e, (Draft.of ⟨"t", [{ name := "a", type := .integer }, { name := "b", type := .text },
          { name := "c", type := .date }], [⟨"t_ab", ["A", "b"], true⟩, ⟨"t_c", ["c"], false⟩,
          ⟨"t_cb", ["c", "b"], false⟩]⟩).applyAll
        [⟨0, {}, .remove ⟨2⟩ "c"⟩, ⟨1, {}, .rename ⟨1⟩ "b" "c"⟩,
          ⟨2, {}, .insert ⟨3⟩ 0 { name := "b", type := .byte }⟩, ⟨3, {}, .move ⟨1⟩ "c" 0⟩,
          ⟨4, {}, .rename ⟨0⟩ "a" "d"⟩] = .ok d ∧
      d.finish = .ok e ∧
      Index.AllFollow ⟨"t", [{ name := "a", type := .integer }, { name := "b", type := .text },
          { name := "c", type := .date }], [⟨"t_ab", ["A", "b"], true⟩, ⟨"t_c", ["c"], false⟩,
          ⟨"t_cb", ["c", "b"], false⟩]⟩ e.table ⟨[1, 3, 0], [2]⟩
        [⟨"t_ab", ["A", "b"], true⟩, ⟨"t_c", ["c"], false⟩, ⟨"t_cb", ["c", "b"], false⟩]
        e.table.indexes ∧
      e.table.names = ["c", "b", "d"] ∧
      e.table.indexes = [⟨"t_ab", ["d", "c"], true⟩, ⟨"t_cb", ["c"], false⟩] := by
  have hd : (Draft.of ⟨"t", [{ name := "a", type := .integer }, { name := "b", type := .text },
        { name := "c", type := .date }], [⟨"t_ab", ["A", "b"], true⟩, ⟨"t_c", ["c"], false⟩,
        ⟨"t_cb", ["c", "b"], false⟩]⟩).applyAll
      [⟨0, {}, .remove ⟨2⟩ "c"⟩, ⟨1, {}, .rename ⟨1⟩ "b" "c"⟩,
        ⟨2, {}, .insert ⟨3⟩ 0 { name := "b", type := .byte }⟩, ⟨3, {}, .move ⟨1⟩ "c" 0⟩,
        ⟨4, {}, .rename ⟨0⟩ "a" "d"⟩] = .ok _ := rfl
  exact ⟨_, _, hd, rfl, (Draft.indexes_follow (by decide) hd rfl).1, rfl, rfl⟩

end Names

end TableAlteration
