import TableAlteration.Proofs.Edit.Idempotence
import TableAlteration.Proofs.Edit.Survivors
import TableAlteration.Run.Alteration

namespace TableAlteration

/-- A removal comes first, and nothing is changed after an insertion. -/
structure Staged (l : List Planned) : Prop where
  removal : ∀ {k p m}, l = k ++ p :: m → p.action.isRemoval → ∀ q ∈ k, q.uid ≠ p.uid
  change : ∀ {k p m}, l = k ++ p :: m → p.action.isChange → ∀ q ∈ k, q.uid = p.uid →
    q.action.isInsertion = false

/-- The edits reach a row of the table before they insert one. -/
def Reaches (e : List Planned) : Prop :=
  ∃ k p m, e = k ++ p :: m ∧ p.action.isInsertion = false ∧ p.action.isRemoval = false ∧
    ∀ q ∈ k, q.action.isInsertion = false

/-- What a row holds that is bound to the number whose edits are `e`. -/
inductive Made (t : Table) (e : List Planned) (f : Field) : Prop where
  | kept {g : Field} : g ∈ t.fields → Reaches e → e.foldlM Record.applyChange g = .ok f → Made t e f
  | brought {p : Planned} {u : Uid} {i : Nat} : p ∈ e → p.action = .insert u i f → Made t e f

section Made

variable {t : Table} {k l e : List Planned} {p : Planned} {f g : Field}

theorem Reaches.snoc (h : Reaches e) (p : Planned) : Reaches (e ++ [p]) := by
  obtain ⟨k, q, m, rfl, hq⟩ := h
  exact ⟨k, q, m ++ [p], by simp, hq⟩

/-- What is not changed stays as it was made. -/
theorem Made.snoc (h : Made t e f) (hp : p.action.isChange = false) : Made t (e ++ [p]) f := by
  cases h with
  | kept hg hreaches hfold =>
    refine .kept hg (hreaches.snoc p) (foldlM_append_eq_ok.2 ⟨f, hfold, ?_⟩)
    exact foldlM_cons_eq_ok.2 ⟨f, Record.applyChange_of_not_change hp, rfl⟩
  | brought hq ha => exact .brought (List.mem_append_left _ hq) ha

/-- A change of a row that was not inserted. -/
theorem Made.change (h : Made t e f) (he : ∀ q ∈ e, q.action.isInsertion = false)
    (hp : Record.applyChange f p = .ok g) : Made t (e ++ [p]) g := by
  cases h with
  | kept hg hreaches hfold =>
    refine .kept hg (hreaches.snoc p) (foldlM_append_eq_ok.2 ⟨f, hfold, ?_⟩)
    exact foldlM_cons_eq_ok.2 ⟨g, hp, rfl⟩
  | brought hq ha =>
    have hno := he _ hq
    rw [ha] at hno
    cases hno

theorem foldlM_of_no_changes (h : ∀ q ∈ e, q.action.isChange = false) (f : Field) :
    e.foldlM Record.applyChange f = .ok f := by
  induction e with
  | nil => rfl
  | cons q e ih =>
    exact foldlM_cons_eq_ok.2 ⟨f, Record.applyChange_of_not_change (h q List.mem_cons_self),
      ih fun x hx => h x (List.mem_cons_of_mem q hx)⟩

/-- The edit that finds a row of the table, after removals only. -/
theorem made_of_first (hf : f ∈ t.fields) (he : ∀ q ∈ e, q.action.isRemoval)
    (hi : p.action.isInsertion = false) (hr : p.action.isRemoval = false)
    (hp : Record.applyChange f p = .ok g) : Made t (e ++ [p]) g := by
  have hremoval : ∀ q ∈ e, q.action.isInsertion = false ∧ q.action.isChange = false := by
    intro q hq
    obtain ⟨u, n, ha⟩ := Record.isRemoval_iff.1 (he q hq)
    rw [ha]
    exact ⟨rfl, rfl⟩
  refine .kept hf ⟨e, p, [], rfl, hi, hr, fun q hq => (hremoval q hq).1⟩ ?_
  have hnone := foldlM_of_no_changes (fun q hq => (hremoval q hq).2) f
  exact foldlM_append_eq_ok.2 ⟨f, hnone, foldlM_cons_eq_ok.2 ⟨g, hp, rfl⟩⟩

theorem not_made_of_nil : ¬Made t [] f := by
  intro h
  cases h with
  | kept _ hreaches =>
    obtain ⟨k, q, m, e, -⟩ := hreaches
    simp at e
  | brought hq => cases hq

theorem not_made_of_removal (hp : p.action.isRemoval) : ¬Made t [p] f := by
  obtain ⟨v, n, ha⟩ := Record.isRemoval_iff.1 hp
  intro h
  cases h with
  | kept _ hreaches =>
    obtain ⟨k, q, m, e, -, hq, -⟩ := hreaches
    obtain rfl : p = q := by
      cases k with
      | nil => exact (List.cons.inj e).1
      | cons => simp at e
    rw [hp] at hq
    cases hq
  | brought hq ha' =>
    rw [List.mem_singleton.1 hq, ha] at ha'
    cases ha'

theorem not_reaches_of_insertion (hp : p.action.isInsertion) : ¬Reaches (p :: e) := by
  intro h
  obtain ⟨k, q, m, e, hq, -, hk⟩ := h
  cases k with
  | nil =>
    rw [(List.cons.inj e).1, hq] at hp
    cases hp
  | cons a k =>
    have ha := hk a List.mem_cons_self
    rw [← (List.cons.inj e).1, hp] at ha
    cases ha

end Made

namespace Draft

/-- What a draft holds after the edits `k`. -/
structure Holds (t : Table) (k : List Planned) (d : Draft) : Prop where
  unbound : ∀ r ∈ d.rows, r.uid = none → r.field ∈ t.fields
  bound : ∀ r ∈ d.rows, ∀ u, r.uid = some u → Made t (editsOf u k) r.field
  housed : ∀ p ∈ k, p.action.isRemoval = false → ∃ r ∈ d.rows, r.uid = some p.uid
  single : ∀ u, (∀ p ∈ editsOf u k, p.action.isInsertion = false) →
    d.rows.countP (fun r => r.uid = some u) ≤ 1

variable {t : Table} {d d' : Draft} {k l m : List Planned} {p : Planned} {u : Uid}

theorem holds_of (t : Table) : Holds t [] (Draft.of t) := by
  have hrows : ∀ r ∈ (Draft.of t).rows, r.field ∈ t.fields ∧ r.uid = none := by
    intro r hr
    refine ⟨?_, ?_⟩
    · rw [← Draft.fields_of t]
      exact List.mem_map_of_mem hr
    · obtain ⟨⟨f, i⟩, -, rfl⟩ := List.mem_map.1 hr
      rfl
  refine ⟨fun r hr _ => (hrows r hr).1, fun r hr u hu => ?_, by simp, fun u _ => ?_⟩
  · rw [(hrows r hr).2] at hu
    cases hu
  · have hzero : (Draft.of t).rows.countP (fun r => r.uid = some u) = 0 :=
      List.countP_eq_zero.2 fun r hr => by simp [(hrows r hr).2]
    rw [hzero]
    exact Nat.zero_le 1

/-- Without an insertion a number has no second row. -/
theorem Holds.alone (h : Holds t k d) (hu : ∀ p ∈ editsOf u k, p.action.isInsertion = false)
    {q : Row} {rest : List Row} (hperm : d.rows.Perm (q :: rest)) (hq : q.uid = some u) :
    ∀ r ∈ rest, r.uid ≠ some u := by
  have hone := h.single u hu
  rw [hperm.countP_eq, List.countP_cons, if_pos (by simpa using hq)] at hone
  have hzero := List.countP_eq_zero.1 (Nat.le_zero.1 (Nat.le_of_add_le_add_right hone))
  exact fun r hr e => hzero r hr (by simpa using e)

theorem mem_editsOf_snoc : p ∈ editsOf p.uid (k ++ [p]) := by
  rw [editsOf_snoc_self]
  exact List.mem_append_right _ List.mem_cons_self

theorem Holds.insert (h : Holds t k d) (hp : p.action.isInsertion) (ha : d.apply p = .ok d') :
    Holds t (k ++ [p]) d' := by
  obtain ⟨u, i, f, hact, hperm⟩ := insertion_of_apply hp ha
  refine ⟨fun r hr hnone => ?_, fun r hr v hv => ?_, fun q hq hrem => ?_, fun v hno => ?_⟩
  · rcases List.mem_cons.1 (hperm.mem_iff.1 hr) with rfl | hr
    · cases hnone
    · exact h.unbound r hr hnone
  · rcases List.mem_cons.1 (hperm.mem_iff.1 hr) with rfl | hr
    · cases hv
      exact .brought mem_editsOf_snoc hact
    · by_cases hvp : v = p.uid
      · subst hvp
        rw [editsOf_snoc_self]
        exact (h.bound r hr _ hv).snoc (by rw [hact]; rfl)
      · rw [editsOf_snoc_of_ne hvp]
        exact h.bound r hr v hv
  · rcases List.mem_append.1 hq with hq | hq
    · obtain ⟨r, hr, hu⟩ := h.housed q hq hrem
      exact ⟨r, hperm.mem_iff.2 (List.mem_cons_of_mem _ hr), hu⟩
    · rw [List.mem_singleton.1 hq]
      exact ⟨_, hperm.mem_iff.2 List.mem_cons_self, rfl⟩
  · by_cases hvp : v = p.uid
    · subst hvp
      rw [hno p mem_editsOf_snoc] at hp
      cases hp
    · rw [editsOf_snoc_of_ne hvp] at hno
      rw [hperm.countP_eq, List.countP_cons, if_neg (by simpa using Ne.symm hvp)]
      exact h.single v hno

theorem Holds.remove (hs : Staged (k ++ p :: m)) (h : Holds t k d) (hp : p.action.isRemoval)
    (ha : d.apply p = .ok d') : Holds t (k ++ [p]) d' := by
  obtain ⟨q, hperm, hfound⟩ := removal_of_apply hp ha
  have hfirst : editsOf p.uid k = [] :=
    List.filter_eq_nil_iff.2 fun x hx => by simpa using hs.removal rfl hp x hx
  have hfree : ∀ r ∈ d.rows, r.uid ≠ some p.uid := by
    intro r hr hu
    have hmade := h.bound r hr _ hu
    rw [hfirst] at hmade
    exact not_made_of_nil hmade
  have hq : q.uid = none := by
    rcases hfound with hu | ⟨-, hnone⟩
    · exact absurd hu (hfree q (hperm.mem_iff.2 List.mem_cons_self))
    · exact hnone
  have hold : ∀ r ∈ d'.rows, r ∈ d.rows := fun r hr =>
    hperm.mem_iff.2 (List.mem_cons_of_mem q hr)
  have hedits : ∀ r ∈ d'.rows, ∀ v, r.uid = some v → editsOf v (k ++ [p]) = editsOf v k := by
    intro r hr v hv
    refine editsOf_snoc_of_ne fun e => hfree r (hold r hr) ?_
    rw [hv, e]
  refine ⟨fun r hr => h.unbound r (hold r hr), fun r hr v hv => ?_, fun x hx hrem => ?_,
    fun v hno => ?_⟩
  · rw [hedits r hr v hv]
    exact h.bound r (hold r hr) v hv
  · rcases List.mem_append.1 hx with hx | hx
    · obtain ⟨r, hr, hu⟩ := h.housed x hx hrem
      rcases List.mem_cons.1 (hperm.mem_iff.1 hr) with rfl | hr
      · rw [hq] at hu
        cases hu
      · exact ⟨r, hr, hu⟩
    · rw [List.mem_singleton.1 hx, hp] at hrem
      cases hrem
  · have hone := h.single v fun x hx => hno x (by
      rw [editsOf_append]
      exact List.mem_append_left _ hx)
    rw [hperm.countP_eq, List.countP_cons, if_neg (by simp [hq])] at hone
    exact hone

/-- The row that takes a change or a move has what the edit makes of it. -/
theorem Holds.made_of_exchange (hs : Staged (k ++ p :: m)) (h : Holds t k d)
    (hi : p.action.isInsertion = false) (hr : p.action.isRemoval = false) {q : Row} {f : Field}
    (hq : q ∈ d.rows) (hchange : Record.applyChange q.field p = .ok f)
    (hfound : q.uid = some p.uid ∨ (∀ x ∈ d.rows, x.uid ≠ some p.uid) ∧ q.uid = none) :
    Made t (editsOf p.uid (k ++ [p])) f := by
  rw [editsOf_snoc_self]
  rcases hfound with hu | ⟨hfree, hnone⟩
  · have hmade := h.bound q hq p.uid hu
    cases hp : p.action.isChange with
    | true =>
      refine hmade.change (fun x hx => ?_) hchange
      obtain ⟨hx, hxu⟩ := mem_editsOf.1 hx
      exact hs.change rfl hp x hx hxu
    | false =>
      rw [Record.applyChange_of_not_change hp] at hchange
      cases hchange
      exact hmade.snoc hp
  · refine made_of_first (h.unbound q hq hnone) (fun x hx => ?_) hi hr hchange
    -- any other edit would have left a row with this number
    obtain ⟨hx, hxu⟩ := mem_editsOf.1 hx
    cases hxr : x.action.isRemoval with
    | true => rfl
    | false =>
      obtain ⟨r, hr, hu⟩ := h.housed x hx hxr
      rw [hxu] at hu
      exact absurd hu (hfree r hr)

theorem Holds.exchange (hs : Staged (k ++ p :: m)) (h : Holds t k d)
    (hi : p.action.isInsertion = false) (hr : p.action.isRemoval = false)
    (ha : d.apply p = .ok d') : Holds t (k ++ [p]) d' := by
  obtain ⟨q, f, rest, hold, hnew, hchange, hfound⟩ := exchange_of_apply hi hr ha
  have hfound : q.uid = some p.uid ∨ (∀ x ∈ d.rows, x.uid ≠ some p.uid) ∧ q.uid = none :=
    hfound.imp_right fun hnone => ⟨hnone.1, hnone.2.1⟩
  have hq : q ∈ d.rows := hold.mem_iff.2 List.mem_cons_self
  have hrest : ∀ r ∈ rest, r ∈ d.rows := fun r hr => hold.mem_iff.2 (List.mem_cons_of_mem q hr)
  refine ⟨fun r hr hnone => ?_, fun r hr v hv => ?_, fun x hx hrem => ?_, fun v hno => ?_⟩
  · rcases List.mem_cons.1 (hnew.mem_iff.1 hr) with rfl | hr
    · cases hnone
    · exact h.unbound r (hrest r hr) hnone
  · rcases List.mem_cons.1 (hnew.mem_iff.1 hr) with rfl | hr
    · cases hv
      exact h.made_of_exchange hs hi ‹_› hq hchange hfound
    · by_cases hvp : v = p.uid
      · subst hvp
        rw [editsOf_snoc_self]
        refine (h.bound r (hrest r hr) _ hv).snoc ?_
        -- a change goes to the only row of its number
        by_contra hp
        have hno : ∀ x ∈ editsOf p.uid k, x.action.isInsertion = false := by
          intro x hx
          obtain ⟨hx, hxu⟩ := mem_editsOf.1 hx
          exact hs.change rfl (by simpa using hp) x hx hxu
        rcases hfound with hu | ⟨hfree, -⟩
        · exact h.alone hno hold hu r hr hv
        · exact hfree r (hrest r hr) hv
      · rw [editsOf_snoc_of_ne hvp]
        exact h.bound r (hrest r hr) v hv
  · rcases List.mem_append.1 hx with hx | hx
    · obtain ⟨r, hr, hu⟩ := h.housed x hx hrem
      rcases List.mem_cons.1 (hold.mem_iff.1 hr) with rfl | hr
      · refine ⟨_, hnew.mem_iff.2 List.mem_cons_self, ?_⟩
        rcases hfound with hu' | ⟨-, hnone⟩
        · rw [← hu, hu']
        · rw [hnone] at hu
          cases hu
      · exact ⟨r, hnew.mem_iff.2 (List.mem_cons_of_mem _ hr), hu⟩
    · rw [List.mem_singleton.1 hx]
      exact ⟨_, hnew.mem_iff.2 List.mem_cons_self, rfl⟩
  · have hone := h.single v fun x hx => hno x (by
      rw [editsOf_append]
      exact List.mem_append_left _ hx)
    rw [hnew.countP_eq, List.countP_cons]
    rcases hfound with hu | ⟨hfree, hnone⟩
    · rw [hold.countP_eq, List.countP_cons, hu] at hone
      exact hone
    · by_cases hvp : v = p.uid
      · subst hvp
        have hzero : rest.countP (fun r => r.uid = some p.uid) = 0 :=
          List.countP_eq_zero.2 fun r hr => by simpa using hfree r (hrest r hr)
        rw [hzero]
        split <;> omega
      · rw [if_neg (by simpa using Ne.symm hvp)]
        rw [hold.countP_eq, List.countP_cons, if_neg (by simp [hnone])] at hone
        exact hone

theorem Holds.applyAll (hs : Staged (k ++ l)) (h : Holds t k d) (ha : d.applyAll l = .ok d') :
    Holds t (k ++ l) d' := by
  induction l generalizing k d with
  | nil =>
    cases ha
    rwa [List.append_nil]
  | cons p l ih =>
    obtain ⟨d1, h1, ha⟩ := foldlM_cons_eq_ok.1 ha
    have hstep : Holds t (k ++ [p]) d1 := by
      cases hi : p.action.isInsertion with
      | true => exact h.insert hi h1
      | false =>
        cases hr : p.action.isRemoval with
        | true => exact h.remove hs hr h1
        | false => exact h.exchange hs hi hr h1
    rw [← List.singleton_append, ← List.append_assoc] at hs ⊢
    exact ih hs hstep ha

end Draft

namespace Record

/-- What is recorded beside an insertion comes before it. -/
def ChangesFirst (r : Record) : Prop :=
  ∀ p, r.insertion = some p → ∀ q ∈ r.definitionChanges, q.order < p.order

variable {r s : Record} {p : Planned} {h : List Planned}

theorem ChangesFirst.withFieldName (hr : r.ChangesFirst) (n : String) :
    (r.withFieldName n).ChangesFirst := by
  intro p hp q hq
  rw [definitionChanges_withFieldName] at hq
  obtain ⟨q', hq', rfl⟩ := List.mem_map.1 hq
  exact hr p hp q' hq'

theorem Absorbs.changesFirst (ha : Absorbs p s r) (hs : s.ChangesFirst)
    (hp : ∀ q ∈ s.toList, p.order < q.order) : r.ChangesFirst := by
  have hinsertion : ∀ q, s.insertion = some q → p.order < q.order := fun q hq =>
    hp q (mem_toList.2 (.inr (.inl hq)))
  cases ha with
  | rename ha hn h1 h2 =>
    refine ChangesFirst.withFieldName (r := { s with rename := some p }) (fun q hq x hx => ?_) _
    rcases mem_definitionChanges.1 hx with hx | hx
    · cases hx
      exact hinsertion q hq
    · exact hs q hq x (mem_definitionChanges.2 (.inr hx))
  | merge => exact hs.withFieldName _
  | change ha hn h1 h2 =>
    intro q hq x hx
    rcases mem_definitionChanges.1 hx with hx | ⟨k, hx⟩
    · exact hs q hq x (mem_definitionChanges.2 (.inl hx))
    · rw [Dict.get?_insert] at hx
      split at hx
      · cases hx
        exact hinsertion q hq
      · exact hs q hq x (mem_definitionChanges.2 (.inr ⟨k, hx⟩))
  | overwritten | superseded | remove | move => exact hs
  | cancel =>
    intro q hq
    cases hq
  | insert =>
    intro q hq x hx
    rcases mem_definitionChanges.1 hx with hx | ⟨k, hx⟩
    · cases hx
    · cases hx

theorem changesFirst_of_history (ho : h.Pairwise fun a b => a.order < b.order)
    (hr : ofHistory h = .ok r) : r.ChangesFirst := by
  induction h generalizing r with
  | nil =>
    cases hr
    intro p hp
    cases hp
  | cons p h ih =>
    obtain ⟨s, hs, ha⟩ := ofHistory_cons.1 hr
    exact ha.changesFirst (ih ho.of_cons hs) (order_lt_of_history ho hs)

end Record

section Reductions

variable {t : Table} {actions : List Action} {l : List Planned} {r : Reduction} {d : Draft}
  {u : Uid} {k m : List Planned} {p q : Planned}

/-- The record that the remaining edits of a number come from. -/
theorem Reduction.record_of_planAll (hl : planAll actions = .ok l) (hr : Reduction.of l = .ok r)
    (u : Uid) : ∃ s, Record.ofHistory (editsOf u l) = .ok s ∧ s.Tidy u ∧
      editsOf u r.ordered = inOrder s.settled.toList := by
  obtain ⟨s, hs, e⟩ := editsOf_ordered hr u
  rw [inOrder_of_planAll hl] at hs
  exact ⟨s, hs, Record.tidy_of_history (fun x hx => (mem_editsOf.1 hx).2) hs, e⟩

theorem Reduction.mem_record {s : Record} (e : editsOf u r.ordered = inOrder s.settled.toList)
    (hq : q ∈ r.ordered) (hu : q.uid = u) : q ∈ s.toList := by
  refine Record.mem_of_mem_settled (mem_inOrder.1 ?_)
  rw [← e]
  exact mem_editsOf.2 ⟨hq, hu⟩

theorem Reduction.staged (hl : planAll actions = .ok l) (hr : Reduction.of l = .ok r) :
    Staged r.ordered := by
  have hbefore : ∀ {k p m q}, r.ordered = k ++ p :: m → q ∈ k →
      p ∈ r.ordered ∧ q ∈ r.ordered ∧ q.order < p.order := by
    intro k p m q e hq
    have hasc := ordered_ascending hl hr
    rw [e] at hasc ⊢
    exact ⟨by simp, List.mem_append_left _ hq,
      (List.pairwise_append.1 hasc).2.2 q hq p List.mem_cons_self⟩
  have hhistory : ∀ u, (editsOf u l).Pairwise fun a b => a.order < b.order := fun u =>
    (planAll_ascending hl).filter _
  constructor
  · intro k p m e hp q hq hu
    obtain ⟨hmem, hmem', hlt⟩ := hbefore e hq
    obtain ⟨s, hs, tidy, hrecord⟩ := record_of_planAll hl hr p.uid
    have hremoval := (tidy.place (mem_record hrecord hmem rfl)).2 hp
    have hfirst := Record.removalFirst_of_history (hhistory p.uid) hs
    have hq' := Record.mem_toList.1 (mem_record hrecord hmem' hu)
    rcases hq' with hq' | hq'
    · rw [hremoval] at hq'
      cases hq'
      exact Nat.lt_irrefl _ hlt
    · have hlt' := hfirst p hremoval q (Record.mem_toList.2 (.inr hq'))
      exact Nat.lt_asymm hlt hlt'
  · intro k p m e hp q hq hu
    obtain ⟨hmem, hmem', hlt⟩ := hbefore e hq
    obtain ⟨s, hs, tidy, hrecord⟩ := record_of_planAll hl hr p.uid
    by_contra hins
    have hinsertion := (tidy.place (mem_record hrecord hmem' hu)).1 (by simpa using hins)
    have hchange : p ∈ s.definitionChanges := by
      rw [← tidy.filter_isChange]
      exact List.mem_filter.2 ⟨mem_inOrder.2 (mem_record hrecord hmem rfl), hp⟩
    have hlt' := Record.changesFirst_of_history (hhistory p.uid) hs q hinsertion p hchange
    exact Nat.lt_asymm hlt hlt'

theorem Alteration.holds_of_edited (hl : planAll actions = .ok l) (hr : Reduction.of l = .ok r)
    (hd : edited t r.ordered = .ok d) : Draft.Holds t r.ordered d := by
  obtain ⟨d1, h1, h2⟩ := bind_eq_ok.1 hd
  obtain ⟨-, rfl⟩ := Draft.finish_eq_ok.1 h2
  have hstaged : Staged ([] ++ r.ordered) := Reduction.staged hl hr
  obtain ⟨hunbound, hbound, hhoused, hsingle⟩ := (Draft.holds_of t).applyAll hstaged h1
  exact ⟨hunbound, hbound, hhoused, hsingle⟩

end Reductions

end TableAlteration
