import TableAlteration.Proofs.Edit.LastWrites
import TableAlteration.Proofs.Edit.Runs

namespace TableAlteration

theorem Lives.not_insertion {h : List Planned} (hl : Lives h) :
    ∀ p ∈ h, p.action.isInsertion = false := by
  induction h with
  | nil => simp
  | cons p h ih =>
    intro q hq
    rcases List.mem_cons.1 hq with rfl | hq
    · exact hl.1
    · exact ih hl.2.2 q hq

/-- A removal is the end. -/
theorem effects_of_removed {h : List Planned} {f : Field} {s : Option Field} (hl : Lives h)
    (hrem : ∃ p ∈ h, p.action.isRemoval) (hs : h.foldlM Planned.effect (some f) = .ok s) :
    s = none := by
  induction h generalizing f with
  | nil => simp at hrem
  | cons p h ih =>
    obtain ⟨s1, h1, h2⟩ := foldlM_cons_eq_ok.1 hs
    cases hp : p.action.isRemoval with
    | true =>
      have hnil := hl.2.1 hp
      subst hnil
      cases h2
      cases ha : p.action with
      | remove u name =>
        rw [Planned.effect_of_removal ha] at h1
        cases h1
        rfl
      | _ => simp [ha, Action.isRemoval] at hp
    | false =>
      rw [Planned.effect_of_stays hl.1 hp] at h1
      obtain ⟨g, -, rfl⟩ := map_eq_ok.1 h1
      refine ih hl.2.2 ?_ h2
      obtain ⟨q, hq, hr⟩ := hrem
      rcases List.mem_cons.1 hq with rfl | hq
      · rw [hp] at hr
        cases hr
      · exact ⟨q, hq, hr⟩

theorem Field.folded_eq {f g : Field} (h : f.forget .name = g.forget .name)
    (hn : Text.sameName f.name g.name) : f.folded = g.folded := by
  rw [Text.sameName_iff] at hn
  have h' : { f.forget .name with name := Text.fold f.name } =
      { g.forget .name with name := Text.fold g.name } := by rw [h, hn]
  exact h'

namespace Record

theorem absorbs_of_not_insertion (r : Record) {p : Planned} (hp : p.action.isInsertion = false) :
    ∃ r', Absorbs p r r' := by
  have h : ∃ r', r.absorb p = .ok r' := by
    unfold absorb
    cases ha : p.action with
    | insert => simp [ha, Action.isInsertion] at hp
    | remove => exact ⟨_, rfl⟩
    | change u f n v =>
      simp only
      split
      · exact ⟨_, rfl⟩
      · split <;> exact ⟨_, rfl⟩
    | move u f i =>
      simp only
      split <;> exact ⟨_, rfl⟩
  obtain ⟨r', h⟩ := h
  exact ⟨r', absorb_eq_ok.1 h⟩

theorem ofHistory_of_not_insertion {h : List Planned}
    (hi : ∀ p ∈ h, p.action.isInsertion = false) : ∃ r, ofHistory h = .ok r := by
  induction h with
  | nil => exact ⟨{}, rfl⟩
  | cons p h ih =>
    obtain ⟨s, hs⟩ := ih fun q hq => hi q (List.mem_cons_of_mem p hq)
    obtain ⟨r, hr⟩ := s.absorbs_of_not_insertion (hi p List.mem_cons_self)
    exact ⟨r, ofHistory_cons.2 ⟨s, hs, hr⟩⟩

/-- An insertion or a removal in a record stands in its place. -/
theorem Tidy.place {u : Uid} {r : Record} {p : Planned} (h : r.Tidy u) (hp : p ∈ r.toList) :
    (p.action.isInsertion → r.insertion = some p) ∧ (p.action.isRemoval → r.removal = some p) := by
  rcases mem_toList.1 hp with h' | h' | h' | ⟨k, h'⟩ | h'
  · obtain ⟨f, e⟩ := h.removal p h'
    simp [e, Action.isInsertion, h']
  · obtain ⟨i, d, e⟩ := h.insertion p h'
    simp [e, Action.isRemoval, h']
  · obtain ⟨f, n, v, e, -⟩ := h.rename p h'
    simp [e, Action.isInsertion, Action.isRemoval]
  · obtain ⟨f, n, v, e, -⟩ := h.properties k p h'
    simp [e, Action.isInsertion, Action.isRemoval]
  · obtain ⟨f, i, e⟩ := h.movement p h'
    simp [e, Action.isInsertion, Action.isRemoval]

theorem Tidy.isInsertion_eq_false {u : Uid} {r : Record} {p : Planned} (h : r.Tidy u)
    (hi : r.insertion = none) (hp : p ∈ r.toList) : p.action.isInsertion = false := by
  by_contra hne
  have h' := (h.place hp).1 (by simpa using hne)
  rw [hi] at h'
  cases h'

theorem Tidy.isRemoval_eq_false {u : Uid} {r : Record} {p : Planned} (h : r.Tidy u)
    (hr : r.removal = none) (hp : p ∈ r.toList) : p.action.isRemoval = false := by
  by_contra hne
  have h' := (h.place hp).2 (by simpa using hne)
  rw [hr] at h'
  cases h'

theorem settled_of_rename_eq_none {r : Record} (h : r.rename = none) : r.settled = r := by
  unfold settled renamesIdly
  rw [h]
  rfl

/-- What remains of the history leads to the same end. -/
def EndsAlike (s : Option Field) (r : Record) (f : Option Field) : Prop :=
  ∃ s', (inOrder r.settled.toList).foldlM Planned.effect f = .ok s' ∧
    s'.map Field.folded = s.map Field.folded

section Histories

variable {u : Uid} {h : List Planned} {f : Field} {s : Option Field} {p : Planned}

theorem isRemoval_iff {a : Action} : a.isRemoval ↔ ∃ u f, a = .remove u f := by
  cases a <;> simp [Action.isRemoval]

theorem endsAlike_of_removal (hu : ∀ q ∈ h, q.uid = u)
    (hf : Follows f.name (h.map Planned.action)) (hrem : ∃ q ∈ h, q.action.isRemoval)
    (hs : h.foldlM Planned.effect (some f) = .ok s) :
    ∃ q, ofHistory h = .ok { removal := some q } ∧ EndsAlike s { removal := some q } (some f) := by
  obtain ⟨r, hr⟩ := ofHistory_of_not_insertion hf.lives.not_insertion
  obtain ⟨q, rfl⟩ := removed_of_lives hf.lives hr hrem
  obtain ⟨name, hq⟩ := (tidy_of_history hu hr).removal q rfl
  have hnone := effects_of_removed hf.lives hrem hs
  subst hnone
  refine ⟨q, hr, none, ?_, rfl⟩
  rw [settled_of_rename_eq_none rfl]
  exact foldlM_cons_eq_ok.2 ⟨none, Planned.effect_of_removal hq f, rfl⟩

/-- A field of the table ends alike under its history and under the record of it. -/
theorem endsAlike_of_existing (ho : h.Pairwise fun a b => a.order < b.order)
    (hu : ∀ q ∈ h, q.uid = u) (hf : Follows f.name (h.map Planned.action))
    (hone : SetsOnce (h.map Planned.action)) (hs : h.foldlM Planned.effect (some f) = .ok s) :
    ∃ r, ofHistory h = .ok r ∧ EndsAlike s r (some f) := by
  by_cases hrem : ∃ q ∈ h, q.action.isRemoval
  · obtain ⟨q, hr, he⟩ := endsAlike_of_removal hu hf hrem hs
    exact ⟨_, hr, he⟩
  · have hkept : ∀ q ∈ h, q.action.isRemoval = false := by simpa using hrem
    rw [effects_of_stays fun q hq => ⟨hf.lives.not_insertion q hq, hkept q hq⟩] at hs
    obtain ⟨g, hg, rfl⟩ := map_eq_ok.1 hs
    obtain ⟨r, hr, hrem, hfold⟩ := foldInto_of_history ho hu hf hkept hone hg
    have tidy := tidy_of_history hu hr
    obtain ⟨hins, hnamed⟩ := named_of_history hf hr
    obtain ⟨g', hg', hforget, hname⟩ := changes_settled tidy hnamed (Text.sameName_refl _) hfold
    have hstays : ∀ q ∈ inOrder r.settled.toList,
        q.action.isInsertion = false ∧ q.action.isRemoval = false := by
      intro q hq
      have hq := mem_of_mem_settled (mem_inOrder.1 hq)
      exact ⟨tidy.isInsertion_eq_false hins hq, tidy.isRemoval_eq_false hrem hq⟩
    refine ⟨r, hr, some g', ?_, ?_⟩
    · rw [effects_of_stays hstays, hg']
      rfl
    · exact congrArg some (Field.folded_eq hforget hname)

theorem inOrder_toList_of_insertion {r : Record} (hrem : r.removal = none)
    (hm : ∀ m, r.movement = some m → p.order < m.order) :
    inOrder (toList { r with insertion := some p, rename := none, properties := ∅ }) =
      p :: r.movement.toList := by
  have hlist : toList { r with insertion := some p, rename := none, properties := ∅ } =
      p :: r.movement.toList := by
    rw [toList, hrem]
    rfl
  have hfirst : ∀ q ∈ r.movement.toList, p.NotAfter q := fun q hq =>
    Nat.le_of_lt (hm q (Option.mem_toList.1 hq))
  rw [hlist, inOrder_cons hfirst]
  cases r.movement <;> rfl

/-- The insertion is made first, and a move leaves the definition as it is. -/
theorem effects_of_insertion {r : Record} {v : Uid} {j : Nat} {g : Field}
    (hp : p.action = .insert v j g) (hrem : r.removal = none)
    (hm : ∀ m, r.movement = some m → p.order < m.order ∧ ∃ u f i, m.action = .move u f i) :
    (inOrder (toList { r with insertion := some p, rename := none, properties := ∅ })).foldlM
      Planned.effect none = .ok (some g) := by
  rw [inOrder_toList_of_insertion hrem fun m h => (hm m h).1]
  refine foldlM_cons_eq_ok.2 ⟨some g, Planned.effect_of_insertion hp, ?_⟩
  cases hmove : r.movement with
  | none => rfl
  | some m =>
    obtain ⟨-, u, f, i, ha⟩ := hm m hmove
    refine foldlM_cons_eq_ok.2 ⟨some g, ?_, rfl⟩
    rw [Planned.effect_of_stays (by rw [ha]; rfl) (by rw [ha]; rfl),
      applyChange_of_not_change (by rw [ha]; rfl)]
    rfl

/-- An inserted field ends alike: its insertion takes its changes in, or a later removal cancels
both. -/
theorem endsAlike_of_inserted {v : Uid} {j : Nat} {d : Field} (hp : p.action = .insert v j d)
    (ho : (p :: h).Pairwise fun a b => a.order < b.order) (hu : ∀ q ∈ p :: h, q.uid = u)
    (hf : Follows d.name (h.map Planned.action)) (hone : SetsOnce (h.map Planned.action))
    (hs : (p :: h).foldlM Planned.effect none = .ok s) :
    ∃ r, ofHistory (p :: h) = .ok r ∧ EndsAlike s r none := by
  obtain ⟨s1, h1, hs⟩ := foldlM_cons_eq_ok.1 hs
  rw [Planned.effect_of_insertion hp] at h1
  cases h1
  have hu' : ∀ q ∈ h, q.uid = u := fun q hq => hu q (List.mem_cons_of_mem p hq)
  by_cases hrem : ∃ q ∈ h, q.action.isRemoval
  · obtain ⟨q, hr, -⟩ := endsAlike_of_removal hu' hf hrem hs
    have hnone := effects_of_removed hf.lives hrem hs
    subst hnone
    exact ⟨{}, ofHistory_cons.2 ⟨_, hr, .cancel hp rfl⟩, none, rfl, rfl⟩
  · have hkept : ∀ q ∈ h, q.action.isRemoval = false := by simpa using hrem
    rw [effects_of_stays fun q hq => ⟨hf.lives.not_insertion q hq, hkept q hq⟩] at hs
    obtain ⟨g, hg, rfl⟩ := map_eq_ok.1 hs
    obtain ⟨r, hr, hrem, hfold⟩ :=
      foldInto_of_history (List.pairwise_cons.1 ho).2 hu' hf hkept hone hg
    have tidy := tidy_of_history hu' hr
    have hlt := order_lt_of_history ho hr
    refine ⟨_, ofHistory_cons.2 ⟨r, hr, .insert hp hrem hfold⟩, some g, ?_, rfl⟩
    rw [settled_of_rename_eq_none rfl]
    refine effects_of_insertion rfl hrem fun m hm => ?_
    obtain ⟨name, i, ha⟩ := tidy.movement m hm
    exact ⟨hlt m (mem_toList.2 (.inr (.inr (.inr (.inr hm))))), u, name, i, ha⟩

end Histories

end Record

end TableAlteration
