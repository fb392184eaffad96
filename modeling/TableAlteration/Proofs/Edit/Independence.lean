import TableAlteration.Proofs.Edit.Records

namespace TableAlteration

namespace Record

/-- The record of the edits of one field, given from first to last. -/
def ofHistory (h : List Planned) : Except AlterError Record := h.reverse.foldlM absorb {}

theorem ofHistory_cons {p : Planned} {h : List Planned} {r : Record} :
    ofHistory (p :: h) = .ok r ↔ ∃ s, ofHistory h = .ok s ∧ Absorbs p s r := by
  unfold ofHistory
  rw [List.reverse_cons, foldlM_append_eq_ok]
  constructor
  · intro h
    obtain ⟨s, hs, h'⟩ := h
    obtain ⟨t, ht, e⟩ := foldlM_cons_eq_ok.1 h'
    cases e
    exact ⟨s, hs, absorb_eq_ok.1 ht⟩
  · intro h
    obtain ⟨s, hs, h'⟩ := h
    exact ⟨s, hs, foldlM_cons_eq_ok.2 ⟨r, absorb_eq_ok.2 h', rfl⟩⟩

theorem tidy_of_history {u : Uid} {h : List Planned} {r : Record} (hu : ∀ p ∈ h, p.uid = u)
    (hr : ofHistory h = .ok r) : r.Tidy u := by
  induction h generalizing r with
  | nil =>
    cases hr
    exact tidy_empty u
  | cons p h ih =>
    obtain ⟨s, hs, ha⟩ := ofHistory_cons.1 hr
    exact ha.tidy (hu p List.mem_cons_self)
      (ih (fun q hq => hu q (List.mem_cons_of_mem p hq)) hs)

/-- A record keeps nothing that was not in the history. -/
theorem bare_of_history {h : List Planned} {r : Record} (hr : ofHistory h = .ok r) {q : Planned}
    (hq : q ∈ r.toList) : ∃ p ∈ h, q.bare = p.bare := by
  induction h generalizing r q with
  | nil =>
    cases hr
    cases hq
  | cons p h ih =>
    obtain ⟨s, hs, ha⟩ := ofHistory_cons.1 hr
    rcases ha.bare_of_mem hq with e | ⟨t, ht, e⟩
    · exact ⟨p, List.mem_cons_self, e⟩
    · obtain ⟨p', hp', e'⟩ := ih hs ht
      exact ⟨p', List.mem_cons_of_mem p hp', e.trans e'⟩

theorem mem_of_mem_settled {r : Record} {p : Planned} (h : p ∈ r.settled.toList) :
    p ∈ r.toList := by
  unfold settled at h
  split at h
  · rw [mem_toList] at h ⊢
    simp only [reduceCtorEq, false_or] at h
    tauto
  · exact h

/-- What is left in the end: nothing is recorded of a field without edits. -/
def kept? (r : Record) : Option Record := (some r.settled).filter fun s => !s.isEmpty

theorem Tidy.settled {u : Uid} {r : Record} (h : r.Tidy u) : r.settled.Tidy u := by
  unfold Record.settled
  split
  · refine { h with rename := ?_ }
    intro p hp
    cases hp
  · exact h

end Record

namespace Reduction

theorem recordOf_insert (m : Dict Uid Record) (u v : Uid) (r : Record) :
    recordOf (m.insert u r) v = if v = u then r else recordOf m v := by
  unfold recordOf
  rw [Dict.get?_insert]
  split <;> rfl

theorem absorb_eq_ok {m m' : Dict Uid Record} {p : Planned} :
    absorb m p = .ok m' ↔
      ∃ r, (recordOf m p.uid).absorb p = .ok r ∧ m' = m.insert p.uid r := by
  unfold absorb
  rw [bind_eq_ok]
  refine exists_congr fun r => and_congr_right fun _ => ?_
  exact ⟨fun h => by cases h; rfl, fun h => by rw [h]; rfl⟩

/-- What the whole pass makes of a field's record, the field's own edits make of it. -/
theorem absorbAll_field {m m' : Dict Uid Record} {l : List Planned} (h : absorbAll m l = .ok m')
    (u : Uid) : (editsOf u l).foldlM Record.absorb (recordOf m u) = .ok (recordOf m' u) := by
  induction l generalizing m with
  | nil =>
    cases h
    rfl
  | cons p l ih =>
    obtain ⟨m1, h1, h2⟩ := foldlM_cons_eq_ok.1 h
    obtain ⟨r, hr, rfl⟩ := absorb_eq_ok.1 h1
    have ih := ih h2
    rw [recordOf_insert] at ih
    rw [editsOf_cons]
    by_cases hu : p.uid = u
    · rw [if_pos hu]
      rw [if_pos hu.symm] at ih
      subst hu
      exact foldlM_cons_eq_ok.2 ⟨r, hr, ih⟩
    · rw [if_neg hu]
      rwa [if_neg (fun e => hu e.symm)] at ih

theorem absorbAll_ok {m : Dict Uid Record} {l : List Planned}
    (h : ∀ u, ∃ r, (editsOf u l).foldlM Record.absorb (recordOf m u) = .ok r) :
    ∃ m', absorbAll m l = .ok m' := by
  induction l generalizing m with
  | nil => exact ⟨m, rfl⟩
  | cons p l ih =>
    obtain ⟨r, hr⟩ := h p.uid
    rw [editsOf_cons, if_pos rfl] at hr
    obtain ⟨s, hs, hr⟩ := foldlM_cons_eq_ok.1 hr
    have hrest : ∀ u, ∃ r,
        (editsOf u l).foldlM Record.absorb (recordOf (m.insert p.uid s) u) = .ok r := by
      intro u
      rw [recordOf_insert]
      by_cases hu : u = p.uid
      · subst hu
        rw [if_pos rfl]
        exact ⟨r, hr⟩
      · rw [if_neg hu]
        obtain ⟨t, ht⟩ := h u
        rw [editsOf_cons, if_neg (fun e => hu e.symm)] at ht
        exact ⟨t, ht⟩
    obtain ⟨m', hm'⟩ := ih hrest
    exact ⟨m', foldlM_cons_eq_ok.2 ⟨_, absorb_eq_ok.2 ⟨s, hs, rfl⟩, hm'⟩⟩

theorem editsOf_reverse (u : Uid) (l : List Planned) :
    editsOf u l.reverse = (editsOf u l).reverse := List.filter_reverse

theorem of_eq_ok {l : List Planned} {r : Reduction} :
    Reduction.of l = .ok r ↔ ∃ m, absorbAll ∅ (inOrder l).reverse = .ok m ∧ r = ⟨settle m⟩ := by
  unfold Reduction.of
  rw [bind_eq_ok]
  refine exists_congr fun m => and_congr_right fun _ => ?_
  exact ⟨fun h => by cases h; rfl, fun h => by rw [h]; rfl⟩

theorem of_ok {l : List Planned} (h : ∀ u, ∃ r, Record.ofHistory (editsOf u (inOrder l)) = .ok r) :
    ∃ r, Reduction.of l = .ok r := by
  have hall : ∀ u, ∃ r, (editsOf u (inOrder l).reverse).foldlM Record.absorb
      (recordOf ∅ u) = .ok r := by
    intro u
    rw [editsOf_reverse]
    exact h u
  obtain ⟨m, hm⟩ := absorbAll_ok hall
  exact ⟨_, of_eq_ok.2 ⟨m, hm, rfl⟩⟩

theorem get?_settle (m : Dict Uid Record) (u : Uid) :
    (settle m).get? u = ((m.get? u).map Record.settled).filter fun r => !r.isEmpty := by
  unfold settle
  rw [Dict.get?_filter, Dict.get?_map]

/-- The record of a field is the record of its own edits, unless nothing is left of them. -/
theorem field?_of {l : List Planned} {r : Reduction} (h : Reduction.of l = .ok r)
    (u : Uid) : ∃ s, Record.ofHistory (editsOf u (inOrder l)) = .ok s ∧
      r.field? u = s.kept? := by
  obtain ⟨m, hm, rfl⟩ := of_eq_ok.1 h
  have hall := absorbAll_field hm u
  rw [editsOf_reverse] at hall
  refine ⟨recordOf m u, hall, ?_⟩
  unfold field?
  rw [get?_settle]
  unfold recordOf
  cases m.get? u <;> rfl

/-- The remaining edits of a field are those of its own record. -/
theorem editsOf_ordered {l : List Planned} {r : Reduction} (h : Reduction.of l = .ok r) (u : Uid) :
    ∃ s, Record.ofHistory (editsOf u (inOrder l)) = .ok s ∧
      editsOf u r.ordered = inOrder s.settled.toList := by
  obtain ⟨m, hm, rfl⟩ := of_eq_ok.1 h
  have hall := absorbAll_field hm
  have hs : ∀ v, Record.ofHistory (editsOf v (inOrder l)) = .ok (recordOf m v) := by
    intro v
    rw [← hall v, editsOf_reverse]
    rfl
  refine ⟨recordOf m u, hs u, ?_⟩
  unfold editsOf ordered toList
  rw [filter_inOrder, Dict.filter_flatMap_values]
  · congr 1
    rw [get?_settle]
    unfold recordOf
    cases m.get? u with
    | none => rfl
    | some s =>
      change (Option.map _ (Option.filter _ (some s.settled))).getD [] = s.settled.toList
      rw [Option.filter_some]
      cases he : s.settled.isEmpty with
      | false => rfl
      | true => exact (List.isEmpty_iff.1 he).symm
  · intro v s hv p hp
    rw [get?_settle] at hv
    obtain ⟨hv, -⟩ := Option.filter_eq_some_iff.1 hv
    obtain ⟨t, ht, rfl⟩ := Option.map_eq_some_iff.1 hv
    have ht' : recordOf m v = t := by simp [recordOf, ht]
    have hh := hs v
    rw [ht'] at hh
    have tidy := Record.tidy_of_history (fun q hq => (mem_editsOf.1 hq).2) hh
    exact tidy.settled.uid hp

/-- The remaining edits are submitted ones, but for the field names they carry and the definitions
they insert. -/
theorem bare_of_mem_ordered {l : List Planned} {r : Reduction} (h : Reduction.of l = .ok r)
    {q : Planned} (hq : q ∈ r.ordered) : ∃ p ∈ l, q.bare = p.bare := by
  obtain ⟨s, hs, e⟩ := editsOf_ordered h q.uid
  have hq' : q ∈ inOrder s.settled.toList := by
    rw [← e]
    exact mem_editsOf.2 ⟨hq, rfl⟩
  obtain ⟨p, hp, e'⟩ := Record.bare_of_history hs (Record.mem_of_mem_settled (mem_inOrder.1 hq'))
  exact ⟨p, mem_inOrder.1 (mem_editsOf.1 hp).1, e'⟩

end Reduction

end TableAlteration
