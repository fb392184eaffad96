import TableAlteration.Proofs.Edit.Independence

namespace TableAlteration

section Edits

variable {u v : Uid} {l : List Planned}

theorem editsOf_editsOf_self (u : Uid) (l : List Planned) :
    editsOf u (editsOf u l) = editsOf u l := by
  unfold editsOf
  rw [List.filter_filter]
  simp

theorem editsOf_editsOf_of_ne (h : v ≠ u) : editsOf v (editsOf u l) = [] := by
  refine List.filter_eq_nil_iff.2 fun p hp => ?_
  have hu : p.uid = u := (mem_editsOf.1 hp).2
  simpa [hu] using h.symm

theorem editsOf_inOrder (u : Uid) (l : List Planned) :
    editsOf u (inOrder l) = inOrder (editsOf u l) := filter_inOrder _ l

end Edits

namespace Reduction

variable {u v : Uid} {k l : List Planned} {m : Dict Uid Record} {r : Reduction} {e : AlterError}

/-- A pass fails on the edits of some field. -/
theorem absorbAll_error (h : absorbAll m l = .error e) :
    ∃ u, (editsOf u l).foldlM Record.absorb (recordOf m u) = .error e := by
  induction l generalizing m with
  | nil => cases h
  | cons p l ih =>
    have hstep : absorbAll m (p :: l) = absorb m p >>= fun m' => absorbAll m' l := rfl
    cases hp : (recordOf m p.uid).absorb p with
    | error e' =>
      have he : e' = e := by
        rw [hstep, absorb, hp] at h
        exact Except.error.inj h
      refine ⟨p.uid, ?_⟩
      rw [editsOf_cons, if_pos rfl, List.foldlM_cons, hp, he]
      rfl
    | ok s =>
      have hrest : absorbAll (m.insert p.uid s) l = .error e := by
        rw [hstep, absorb, hp] at h
        exact h
      obtain ⟨u, hu⟩ := ih hrest
      refine ⟨u, ?_⟩
      rw [recordOf_insert] at hu
      rw [editsOf_cons]
      by_cases hpu : p.uid = u
      · subst hpu
        rw [if_pos rfl] at hu ⊢
        rw [List.foldlM_cons, hp]
        exact hu
      · rw [if_neg (fun e => hpu e.symm)] at hu
        rwa [if_neg hpu]

/-- A reduction is known by the histories of its fields. -/
theorem of_eq_ok_iff_histories : Reduction.of l = .ok r ↔
    ∀ u, ∃ s, Record.ofHistory (editsOf u (inOrder l)) = .ok s ∧ r.field? u = s.kept? := by
  refine ⟨fun h u => field?_of h u, fun h => ?_⟩
  obtain ⟨r', hr'⟩ := of_ok fun u => (h u).imp fun s hs => hs.1
  have hfields : ∀ u, r'.records.get? u = r.records.get? u := by
    intro u
    obtain ⟨s, hs, hfield⟩ := h u
    obtain ⟨s', hs', hfield'⟩ := field?_of hr' u
    rw [hs] at hs'
    cases hs'
    exact hfield'.trans hfield.symm
  have hrecords : r'.records = r.records := Dict.ext hfields
  rw [hr']
  cases r
  cases r'
  cases hrecords
  rfl

theorem history_error (h : Reduction.of l = .error e) :
    ∃ u, Record.ofHistory (editsOf u (inOrder l)) = .error e := by
  have hpass : absorbAll ∅ (inOrder l).reverse = .error e := by
    unfold Reduction.of at h
    cases hm : absorbAll ∅ (inOrder l).reverse with
    | ok m =>
      rw [hm] at h
      cases h
    | error e' =>
      rw [hm] at h
      cases h
      rfl
  obtain ⟨u, hu⟩ := absorbAll_error hpass
  rw [editsOf_reverse] at hu
  exact ⟨u, hu⟩

/-- The history of a field among its own edits. -/
theorem history_editsOf (u v : Uid) (l : List Planned) :
    Record.ofHistory (editsOf v (inOrder (editsOf u l))) =
      if v = u then Record.ofHistory (editsOf u (inOrder l)) else .ok {} := by
  rw [← editsOf_inOrder]
  split
  · rename_i h
    rw [h, editsOf_editsOf_self]
  · rename_i h
    rw [editsOf_editsOf_of_ne h]
    rfl

/-- The edits of one field are reduced to its record. -/
theorem of_editsOf {s : Record} (h : Record.ofHistory (editsOf u (inOrder l)) = .ok s) :
    ∃ r, Reduction.of (editsOf u l) = .ok r ∧
      ∀ v, r.field? v = if v = u then s.kept? else none := by
  have hall : ∀ v, ∃ t, Record.ofHistory (editsOf v (inOrder (editsOf u l))) = .ok t := by
    intro v
    rw [history_editsOf]
    split
    · exact ⟨s, h⟩
    · exact ⟨{}, rfl⟩
  obtain ⟨r, hr⟩ := of_ok hall
  refine ⟨r, hr, fun v => ?_⟩
  obtain ⟨t, ht, hfield⟩ := field?_of hr v
  rw [history_editsOf] at ht
  rw [hfield]
  split at ht
  · rename_i hv
    rw [if_pos hv]
    rw [h] at ht
    cases ht
    rfl
  · rename_i hv
    rw [if_neg hv]
    cases ht
    rfl

theorem of_editsOf_error (h : Record.ofHistory (editsOf u (inOrder l)) = .error e) :
    Reduction.of (editsOf u l) = .error e := by
  cases hr : Reduction.of (editsOf u l) with
  | ok r =>
    obtain ⟨s, hs, -⟩ := field?_of hr u
    rw [history_editsOf, if_pos rfl, h] at hs
    cases hs
  | error e' =>
    obtain ⟨v, hv⟩ := history_error hr
    rw [history_editsOf] at hv
    split at hv
    · rw [h] at hv
      cases hv
      rfl
    · cases hv

/-- A list fails to be reduced exactly if the edits of one field do, with the failure of such a
field; otherwise the record of each field is that of its own edits, and every list that has the same
edits of each field in the same sequence is reduced to the same. -/
theorem fieldwise (l : List Planned) :
    ((∃ e, Reduction.of l = .error e) ↔ ∃ u e, Reduction.of (editsOf u l) = .error e) ∧
    (∀ e, Reduction.of l = .error e → ∃ u, Reduction.of (editsOf u l) = .error e) ∧
    (∀ r, Reduction.of l = .ok r → ∀ u, ∃ s, Reduction.of (editsOf u l) = .ok s ∧
      ∀ v, s.field? v = if v = u then r.field? u else none) ∧
    ∀ k, (∀ u, editsOf u k = editsOf u l) →
      ∀ r, Reduction.of k = .ok r ↔ Reduction.of l = .ok r := by
  have hfails : ∀ e, Reduction.of l = .error e → ∃ u, Reduction.of (editsOf u l) = .error e := by
    intro e h
    obtain ⟨u, hu⟩ := history_error h
    exact ⟨u, of_editsOf_error hu⟩
  have halone : ∀ r, Reduction.of l = .ok r → ∀ u, ∃ s, Reduction.of (editsOf u l) = .ok s ∧
      ∀ v, s.field? v = if v = u then r.field? u else none := by
    intro r h u
    obtain ⟨s, hs, hfield⟩ := field?_of h u
    rw [hfield]
    exact of_editsOf hs
  refine ⟨⟨fun h => ?_, fun h => ?_⟩, hfails, halone, fun k hk r => ?_⟩
  · obtain ⟨e, h⟩ := h
    obtain ⟨u, hu⟩ := hfails e h
    exact ⟨u, e, hu⟩
  · obtain ⟨u, e, h⟩ := h
    cases hl : Reduction.of l with
    | error e' => exact ⟨e', rfl⟩
    | ok r =>
      obtain ⟨s, hs, -⟩ := halone r hl u
      rw [h] at hs
      cases hs
  · have hhistory : ∀ u, editsOf u (inOrder k) = editsOf u (inOrder l) := by
      intro u
      rw [editsOf_inOrder, editsOf_inOrder, hk]
    rw [of_eq_ok_iff_histories, of_eq_ok_iff_histories]
    simp only [hhistory]

/-- Two edits of one field with the same place. -/
def samePlace : List Planned :=
  [⟨3, { physical := true, main := true }, .rename ⟨0⟩ "a" "b"⟩,
    ⟨3, { main := true }, .change ⟨0⟩ "b" "caption" (.text "x")⟩]

def otherField : Planned := ⟨3, { main := true }, .move ⟨1⟩ "c" 0⟩

/-- A third one of another field may stand before, between or behind them; and where one field
cannot be reduced, the list cannot. -/
theorem fieldwise_of_same_place :
    (∃ r s, Reduction.of (otherField :: samePlace) = .ok r ∧
      Reduction.of [samePlace[0], otherField, samePlace[1]] = .ok r ∧
      Reduction.of samePlace = .ok s ∧ s.field? ⟨0⟩ = r.field? ⟨0⟩ ∧
      (r.field? ⟨0⟩).map Record.size = some 2) ∧
    ∃ e, Reduction.of
      [⟨0, { physical := true }, .insert ⟨0⟩ 0 { name := "a", type := .byte }⟩, otherField,
        ⟨1, { physical := true, main := true }, .rename ⟨0⟩ "a" " "⟩] = .error e := by
  obtain ⟨-, -, halone, hsame⟩ := fieldwise (otherField :: samePlace)
  obtain ⟨r, hr⟩ : ∃ r, Reduction.of (otherField :: samePlace) = .ok r := ⟨_, rfl⟩
  obtain ⟨s, hs, hfield⟩ := halone r hr ⟨0⟩
  have hedits : ∀ u, editsOf u [samePlace[0], otherField, samePlace[1]] =
      editsOf u (otherField :: samePlace) := by
    intro u
    by_cases hu : u = ⟨0⟩
    · subst hu
      rfl
    · by_cases hu' : u = ⟨1⟩
      · subst hu'
        rfl
      · simp [editsOf, samePlace, otherField, Planned.uid, Action.uid, Action.rename, Ne.symm hu,
          Ne.symm hu']
  refine ⟨⟨r, s, hr, (hsame _ hedits r).2 hr, hs, hfield ⟨0⟩, ?_⟩, ?_⟩
  · cases hr
    rfl
  · exact (fieldwise _).1.2 ⟨⟨0⟩, _, rfl⟩

end Reduction

end TableAlteration
