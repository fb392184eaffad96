import TableAlteration.Proofs.Store.Catalog

namespace TableAlteration

section Positions

variable {l : List String} {x y : String} {i k : Nat}

theorem idxOf_erase_le (hxy : y ≠ x) : (l.erase x).idxOf y ≤ l.idxOf y := by
  by_cases hx : x ∈ l
  · obtain ⟨a, b, -, rfl, e⟩ := List.exists_erase_eq hx
    rw [e, List.idxOf_append, List.idxOf_append, List.idxOf_cons_ne _ (Ne.symm hxy)]
    split <;> omega
  · exact Nat.le_of_eq (congrArg (List.idxOf y) (List.erase_of_not_mem hx))

/-- What is put in stands at its position or, in a short list, before it. -/
theorem idxOf_place_self (l : List String) (i : Nat) (x : String) : (place l i x).idxOf x ≤ i := by
  have hle : min i (l.erase x).length ≤ (l.erase x).length := Nat.min_le_right ..
  rw [place, insertIdx_eq hle, List.idxOf_append]
  split
  · rename_i h
    have hlt := List.idxOf_lt_length_of_mem h
    rw [List.length_take] at hlt
    omega
  · rw [List.idxOf_cons_self, List.length_take]
    omega

/-- An element is not pushed back by one that is put in behind it. -/
theorem idxOf_place_le (hy : y ∈ l) (hxy : y ≠ x) (hk : l.idxOf y ≤ k) (hi : k < i) :
    (place l i x).idxOf y ≤ k := by
  have hle : min i (l.erase x).length ≤ (l.erase x).length := Nat.min_le_right ..
  have hmem : y ∈ l.erase x := (List.mem_erase_of_ne hxy).2 hy
  have hlt := List.idxOf_lt_length_of_mem hmem
  have hidx := Nat.le_trans (idxOf_erase_le hxy) hk
  have htake : y ∈ (l.erase x).take (min i (l.erase x).length) := by
    rw [List.mem_take_iff_idxOf_lt hmem]
    omega
  have hsame : ((l.erase x).take (min i (l.erase x).length)).idxOf y = (l.erase x).idxOf y := by
    conv_rhs => rw [← List.take_append_drop (min i (l.erase x).length) (l.erase x)]
    exact (List.idxOf_append_of_mem htake).symm
  rw [place, insertIdx_eq hle, List.idxOf_append_of_mem htake, hsame]
  exact hidx

end Positions

namespace Table

variable {t : Table} {l : List (Nat × Field)} {f : Field} {i k : Nat} {name : String}

/-- A row that stands where it is stored stays there, and so do the others. -/
theorem storeField_of_getElem? (h : t.NamesDistinct) (hf : t.fields[i]? = some f) :
    t.storeField i f = t := by
  have hi : t.fieldIndex? f.name = some i :=
    h.fieldIndex?_eq_some.2 ⟨f, hf, Text.sameName_refl _⟩
  obtain ⟨hlt, rfl⟩ := List.getElem?_eq_some_iff.1 hf
  have hlen : min i (t.fields.eraseIdx i).length = i := by
    rw [List.length_eraseIdx_of_lt hlt]
    omega
  unfold storeField
  rw [hi]
  simp only [insertField, insertPosition, hlen, List.insertIdx_eraseIdx_getElem hlt]

theorem storeFields_of_getElem? (h : t.NamesDistinct) (hl : ∀ x ∈ l, t.fields[x.1]? = some x.2) :
    t.storeFields l = t := by
  induction l with
  | nil => rfl
  | cons x l ih =>
    have hx := storeField_of_getElem? h (hl x List.mem_cons_self)
    rw [storeFields, List.foldl_cons, hx]
    exact ih fun y hy => hl y (List.mem_cons_of_mem x hy)

theorem namesDistinct_storeField (h : t.NamesDistinct) (hf : f.name ∈ t.names) (i : Nat) :
    (t.storeField i f).NamesDistinct := namesDistinct_of_perm (names_storeField_perm h hf i).symm h

theorem storeFields_append (t : Table) (k l : List (Nat × Field)) :
    t.storeFields (k ++ l) = (t.storeFields k).storeFields l := List.foldl_append ..

theorem names_storeFields_perm (h : t.NamesDistinct) (hl : ∀ x ∈ l, x.2.name ∈ t.names) :
    (t.storeFields l).names.Perm t.names := by
  induction l generalizing t with
  | nil => exact .refl _
  | cons x l ih =>
    have hx := hl x List.mem_cons_self
    have hperm := names_storeField_perm h hx x.1
    refine (ih (namesDistinct_storeField h hx x.1) fun y hy => ?_).trans hperm
    exact hperm.mem_iff.2 (hl y (List.mem_cons_of_mem x hy))

/-- Rows stored further behind do not push a field back. -/
theorem idxOf_storeFields_le (h : t.NamesDistinct) (hname : name ∈ t.names)
    (hk : t.names.idxOf name ≤ k) (hl : ∀ x ∈ l, x.2.name ∈ t.names)
    (hlater : ∀ x ∈ l, k < x.1 ∧ x.2.name ≠ name) :
    (t.storeFields l).names.idxOf name ≤ k := by
  induction l generalizing t with
  | nil => exact hk
  | cons x l ih =>
    have hx := hl x List.mem_cons_self
    have hperm := names_storeField_perm h hx x.1
    obtain ⟨hlt, hne⟩ := hlater x List.mem_cons_self
    have hstep : (t.storeField x.1 x.2).names.idxOf name ≤ k := by
      rw [names_storeField h hx]
      exact idxOf_place_le hname hne.symm hk hlt
    exact ih (namesDistinct_storeField h hx x.1) (hperm.mem_iff.2 hname) hstep
      (fun y hy => hperm.mem_iff.2 (hl y (List.mem_cons_of_mem x hy)))
      fun y hy => hlater y (List.mem_cons_of_mem x hy)

/-- Rows of different fields of the table, from the first to the last. Where a field stood before
the position at which it is stored, another row is stored. -/
structure Advances (t : Table) (l : List (Nat × Field)) : Prop where
  known : ∀ x ∈ l, x.2.name ∈ t.names
  distinct : (l.map (·.2.name)).Nodup
  ascending : l.Pairwise fun x y => x.1 < y.1
  vacated : ∀ x ∈ l, t.names.idxOf x.2.name < x.1 → ∃ y ∈ l, y.1 = t.names.idxOf x.2.name

namespace Advances

theorem eq_of_name (h : t.Advances l) {x y : Nat × Field} (hx : x ∈ l) (hy : y ∈ l)
    (e : x.2.name = y.2.name) : x = y := List.inj_on_of_nodup_map h.distinct hx hy e

/-- A row is found at its position or before it in the end. -/
theorem idxOf_le (h : t.Advances l) (hn : t.NamesDistinct) {x : Nat × Field} (hx : x ∈ l) :
    (t.storeFields l).names.idxOf x.2.name ≤ x.1 := by
  obtain ⟨a, b, rfl⟩ := List.append_of_mem hx
  have hknown : ∀ y ∈ a ++ x :: b, y.2.name ∈ (t.storeFields a).names := by
    intro y hy
    refine (names_storeFields_perm hn fun z hz => ?_).mem_iff.2 (h.known y hy)
    exact h.known z (List.mem_append_left _ hz)
  have hna : (t.storeFields a).NamesDistinct :=
    namesDistinct_of_perm
      (names_storeFields_perm hn fun z hz => h.known z (List.mem_append_left _ hz)).symm hn
  have hperm := names_storeField_perm hna (hknown x hx) x.1
  have hlater : ∀ y ∈ b, x.1 < y.1 ∧ y.2.name ≠ x.2.name := by
    intro y hy
    have hlt := List.rel_of_pairwise_cons (List.pairwise_append.1 h.ascending).2.1 hy
    refine ⟨hlt, fun e => ?_⟩
    have hyx := h.eq_of_name (List.mem_append_right a (List.mem_cons_of_mem x hy)) hx e
    rw [hyx] at hlt
    exact Nat.lt_irrefl _ hlt
  have hself : ((t.storeFields a).storeField x.1 x.2).names.idxOf x.2.name ≤ x.1 := by
    rw [names_storeField hna (hknown x hx)]
    exact idxOf_place_self ..
  rw [storeFields_append]
  change (((t.storeFields a).storeField x.1 x.2).storeFields b).names.idxOf x.2.name ≤ x.1
  exact idxOf_storeFields_le (namesDistinct_storeField hna (hknown x hx) x.1)
    (hperm.mem_iff.2 (hknown x hx)) hself
    (fun y hy => hperm.mem_iff.2 (hknown y (List.mem_append_right a (List.mem_cons_of_mem x hy))))
    hlater

/-- If the table is as it was, each field stood where it was stored. -/
theorem idxOf_eq (h : t.Advances l) (hn : t.NamesDistinct) (e : t.storeFields l = t)
    (n : Nat) : ∀ x ∈ l, x.1 = n → t.names.idxOf x.2.name = n := by
  -- a field that stood further in front stood at the position of a row stored before
  induction n using Nat.strongRecOn with
  | ind n ih =>
    rintro x hx rfl
    have hle := h.idxOf_le hn hx
    rw [e] at hle
    by_contra hne
    have hlt : t.names.idxOf x.2.name < x.1 := Nat.lt_of_le_of_ne hle hne
    obtain ⟨y, hy, hpos⟩ := h.vacated x hx hlt
    have hidx := ih _ hlt y hy hpos
    have hname := (List.idxOf_inj (h.known y hy)).1 hidx
    have hyx := h.eq_of_name hy hx hname
    rw [hyx] at hpos
    exact hne hpos.symm

theorem storeFields_eq_iff (h : t.Advances l) (hn : t.NamesDistinct) :
    t.storeFields l = t ↔ ∀ x ∈ l, t.fields[x.1]? = some x.2 := by
  refine ⟨fun e x hx => ?_, storeFields_of_getElem? hn⟩
  have hmem : x.2 ∈ t.fields := by
    rw [← e]
    exact (mem_fields_storeFields hn h.known h.distinct).2 (.inl ⟨x, hx, rfl⟩)
  obtain ⟨j, hj⟩ := List.mem_iff_getElem?.1 hmem
  have hname : t.names[j]? = some x.2.name := by
    rw [names, List.getElem?_map, hj]
    rfl
  obtain ⟨hlt, hget⟩ := List.getElem?_eq_some_iff.1 hname
  have hidx : t.names.idxOf x.2.name = j := by
    rw [← hget]
    exact hn.names_nodup.idxOf_getElem j hlt
  rw [← h.idxOf_eq hn e x.1 x hx rfl, hidx]
  exact hj

end Advances

end Table

end TableAlteration
