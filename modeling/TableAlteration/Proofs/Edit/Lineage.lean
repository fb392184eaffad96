import TableAlteration.Proofs.Edit.Places

namespace TableAlteration

/-- The fields that have been in a draft: those that stand in it, in their order, and those that
are removed. Fields of the table are numbered by their positions, an inserted field has the next
number. -/
structure Ledger where
  kept : List Nat
  removed : List Nat := []
  deriving DecidableEq

namespace Ledger

def size (g : Ledger) : Nat := g.kept.length + g.removed.length

def of (t : Table) : Ledger := { kept := List.range t.fields.length }

/-- The edit takes effect where it finds its row in the draft. -/
def enter (g : Ledger) (d : Draft) (p : Planned) : Ledger :=
  match p.action with
  | .change .. => g
  | .insert _ j _ => { g with kept := g.kept.insertIdx (min j g.kept.length) g.size }
  | .remove u name =>
    match d.resolve u name with
    | .ok (i, _) => ⟨g.kept.eraseIdx i, g.kept[i]?.toList ++ g.removed⟩
    | .error _ => g
  | .move u name j =>
    match d.resolve u name with
    | .ok (i, _) => { g with kept := moveWithin g.kept i j }
    | .error _ => g

def trace (g : Ledger) (d : Draft) : List Planned → Ledger
  | [] => g
  | p :: l =>
    match d.apply p with
    | .ok d' => (g.enter d p).trace d' l
    | .error _ => g

section Entries

variable {d d' : Draft} {g : Ledger} {p : Planned} {l : List Planned} {u : Uid} {name : String}
  {i j : Nat} {r : Row}

theorem enter_of_change {n : String} {v : Value} (ha : p.action = .change u name n v) :
    g.enter d p = g := by
  rw [enter, ha]

theorem enter_of_insert {f : Field} (ha : p.action = .insert u j f) :
    g.enter d p = { g with kept := g.kept.insertIdx (min j g.kept.length) g.size } := by
  rw [enter, ha]

theorem enter_of_remove (ha : p.action = .remove u name)
    (hr : d.resolve p.uid p.action.fieldName = .ok (i, r)) :
    g.enter d p = ⟨g.kept.eraseIdx i, g.kept[i]?.toList ++ g.removed⟩ := by
  have hr : d.resolve u name = .ok (i, r) := by rwa [Planned.uid, ha] at hr
  rw [enter, ha]
  simp only [hr]

theorem enter_of_move (ha : p.action = .move u name j)
    (hr : d.resolve p.uid p.action.fieldName = .ok (i, r)) :
    g.enter d p = { g with kept := moveWithin g.kept i j } := by
  have hr : d.resolve u name = .ok (i, r) := by rwa [Planned.uid, ha] at hr
  rw [enter, ha]
  simp only [hr]

theorem trace_cons (h : d.apply p = .ok d') :
    g.trace d (p :: l) = (g.enter d p).trace d' l := by
  rw [trace, h]

theorem trace_append {k : List Planned} (h : d.applyAll k = .ok d') :
    g.trace d (k ++ l) = (g.trace d k).trace d' l := by
  induction k generalizing d g with
  | nil =>
    cases h
    rfl
  | cons p k ih =>
    obtain ⟨d1, h1, h2⟩ := foldlM_cons_eq_ok.1 h
    rw [List.cons_append, trace_cons h1, trace_cons h1, ih h2]

/-- No field leaves the account. -/
theorem size_le_enter (g : Ledger) (d : Draft) (p : Planned) : g.size ≤ (g.enter d p).size := by
  unfold enter size
  split
  · exact Nat.le_refl _
  · simp only [List.length_insertIdx_of_le_length (Nat.min_le_right ..)]
    omega
  · split
    · rename_i i r hr
      rw [List.length_eraseIdx, List.length_append]
      cases hi : g.kept[i]? with
      | none =>
        rw [if_neg (Nat.not_lt.2 (List.getElem?_eq_none_iff.1 hi))]
        exact Nat.add_le_add_left (Nat.le_add_left ..) _
      | some n =>
        rw [if_pos (List.getElem?_eq_some_iff.1 hi).1, Option.toList_some, List.length_singleton]
        omega
    · exact Nat.le_refl _
  · split
    · rw [(moveWithin_perm ..).length_eq]
    · exact Nat.le_refl _

end Entries

end Ledger

/-- What the row of a field of the table has as its origin. -/
def Table.originAt (t : Table) (i : Nat) : Option Origin := t.fields[i]?.map fun f => ⟨f.name, i⟩

/-- The account of a draft is right: every number is in it once, and the rows have the origins of
the numbers that stand in their places. -/
structure Ledger.Accounts (t : Table) (d : Draft) (g : Ledger) : Prop where
  numbers : (g.kept ++ g.removed).Perm (List.range g.size)
  columns : t.fields.length ≤ g.size
  origins : d.rows.map (·.origin) = g.kept.map t.originAt

namespace Ledger.Accounts

variable {t : Table} {d d' : Draft} {g : Ledger} {p : Planned} {l : List Planned} {i j : Nat}

theorem of_table (t : Table) : Ledger.Accounts t (Draft.of t) (Ledger.of t) := by
  refine ⟨?_, ?_, ?_⟩
  · simp [Ledger.of, Ledger.size]
  · simp [Ledger.of, Ledger.size]
  · refine List.ext_getElem (by simp [Draft.of, Ledger.of]) fun i hi hi' => ?_
    have hlt : i < t.fields.length := by simpa [Ledger.of] using hi'
    simp [Draft.of, Ledger.of, Table.originAt, hlt]

theorem length_rows (h : Accounts t d g) : d.rows.length = g.kept.length := by
  have hlen := congrArg List.length h.origins
  rwa [List.length_map, List.length_map] at hlen

/-- An edit that the draft takes is entered rightly. -/
theorem apply (h : Accounts t d g) (hd : d.apply p = .ok d') : Accounts t d' (g.enter d p) := by
  cases Draft.apply_eq_ok.1 hd with
  | @change u name n v i r f ha hr hf =>
    obtain ⟨q, hq, e, -⟩ := Draft.resolve_eq_ok hr
    rw [Ledger.enter_of_change ha]
    refine ⟨h.numbers, h.columns, ?_⟩
    rw [← h.origins]
    exact map_set_of_eq hq (by rw [e])
  | @remove u name i r ha hr =>
    obtain ⟨q, hq, -, -⟩ := Draft.resolve_eq_ok hr
    have hlt : i < g.kept.length := by
      rw [← h.length_rows]
      exact (List.getElem?_eq_some_iff.1 hq).1
    rw [Ledger.enter_of_remove ha hr, List.getElem?_eq_getElem hlt]
    have hsize : size ⟨g.kept.eraseIdx i, g.kept[i] :: g.removed⟩ = g.size := by
      rw [size, size, List.length_eraseIdx_of_lt hlt, List.length_cons]
      omega
    refine ⟨?_, ?_, ?_⟩
    · refine List.Perm.trans ?_ (hsize ▸ h.numbers)
      refine List.perm_middle.trans ?_
      exact (List.getElem_cons_eraseIdx_perm hlt).append_right g.removed
    · exact hsize ▸ h.columns
    · rw [← List.eraseIdx_map, h.origins, List.eraseIdx_map]
  | @insert u j f ha =>
    have hle : min j g.kept.length ≤ g.kept.length := Nat.min_le_right ..
    rw [Ledger.enter_of_insert ha]
    have hsize : size { g with kept := g.kept.insertIdx (min j g.kept.length) g.size } =
        g.size + 1 := by
      simp only [size, List.length_insertIdx_of_le_length hle]
      omega
    have hnew : t.originAt g.size = none := by
      rw [Table.originAt, List.getElem?_eq_none h.columns]
      rfl
    refine ⟨?_, ?_, ?_⟩
    · rw [hsize, List.range_succ]
      refine ((List.perm_insertIdx _ _ hle).append_right g.removed).trans ?_
      exact (h.numbers.cons g.size).trans (List.perm_append_singleton ..).symm
    · rw [hsize]
      exact Nat.le_succ_of_le h.columns
    · rw [List.map_insertIdx, List.map_insertIdx, h.origins, h.length_rows, hnew]
  | @move u name j i r ha hr =>
    obtain ⟨q, hq, e, -⟩ := Draft.resolve_eq_ok hr
    rw [Ledger.enter_of_move ha hr]
    have hsize : size { g with kept := moveWithin g.kept i j } = g.size := by
      rw [size, (moveWithin_perm ..).length_eq, size]
    refine ⟨?_, ?_, ?_⟩
    · rw [hsize]
      exact ((moveWithin_perm ..).append_right g.removed).trans h.numbers
    · rw [hsize]
      exact h.columns
    · have hset := map_set_of_eq (f := fun r : Row => r.origin) (b := r) hq (by rw [e])
      rw [map_moveWithin, map_moveWithin, hset, h.origins]

/-- And so is a run of edits. -/
theorem applyAll (h : Accounts t d g) (hd : d.applyAll l = .ok d') :
    Accounts t d' (g.trace d l) := by
  induction l generalizing d g with
  | nil =>
    cases hd
    exact h
  | cons p l ih =>
    obtain ⟨d1, h1, h2⟩ := foldlM_cons_eq_ok.1 hd
    rw [Ledger.trace_cons h1]
    exact ih (h.apply h1) h2

/-- Finishing a draft moves no row. -/
theorem finish (h : Accounts t d g) (hd : d.finish = .ok d') : Accounts t d' g := by
  obtain ⟨-, rfl⟩ := Draft.finish_eq_ok.1 hd
  exact ⟨h.numbers, h.columns, h.origins⟩

theorem nodup (h : Accounts t d g) : (g.kept ++ g.removed).Nodup :=
  h.numbers.nodup_iff.2 List.nodup_range

theorem kept_nodup (h : Accounts t d g) : g.kept.Nodup := (List.nodup_append.1 h.nodup).1

theorem mem_iff_lt_size (h : Accounts t d g) : i ∈ g.kept ++ g.removed ↔ i < g.size := by
  rw [h.numbers.mem_iff, List.mem_range]

/-- Every field of the table is either kept or removed. -/
theorem mem_kept_iff (h : Accounts t d g) (hi : i < t.fields.length) :
    i ∈ g.kept ↔ i ∉ g.removed := by
  have hmem := h.mem_iff_lt_size.2 (Nat.lt_of_lt_of_le hi h.columns)
  constructor
  · intro hk hr
    exact List.disjoint_of_nodup_append h.nodup hk hr
  · intro hr
    exact (List.mem_append.1 hmem).resolve_right hr

theorem origin_of_kept (h : Accounts t d g) {r : Row} (hr : d.rows[j]? = some r) :
    ∃ i, g.kept[j]? = some i ∧ r.origin = t.originAt i := by
  have hget : (d.rows.map (·.origin))[j]? = some r.origin := by rw [List.getElem?_map, hr]; rfl
  rw [h.origins, List.getElem?_map, Option.map_eq_some_iff] at hget
  obtain ⟨i, hi, e⟩ := hget
  exact ⟨i, hi, e.symm⟩

end Ledger.Accounts

end TableAlteration
