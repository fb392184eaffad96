import TableAlteration.Proofs.Edit.Ends
import TableAlteration.Proofs.Edit.InPlace
import TableAlteration.Proofs.Edit.Interleaving
import TableAlteration.Proofs.Field.Assignments

namespace TableAlteration

/-- What a change of a known property assigns. -/
def Action.assignment? : Action → Option Assignment
  | .change _ _ s v => (Property.ofName? s).map fun p => (p, v)
  | _ => none

def assignments (l : List Action) : List Assignment := l.filterMap Action.assignment?

/-- A change of the field with that number that is no rename. -/
def Action.Sets (u : Uid) (a : Action) : Prop :=
  a.uid = u ∧ a.isChange ∧ a.isRename = false

instance (u : Uid) (a : Action) : Decidable (a.Sets u) :=
  inferInstanceAs (Decidable (_ ∧ _ ∧ _))

theorem Action.sets_iff {u : Uid} {a : Action} :
    a.Sets u ↔ ∃ n s v, a = .change u n s v ∧ ¬Text.sameName s "name" := by
  cases a with
  | change w n s v => simp [Sets, uid, isChange, isRename]
  | _ => simp [Sets, isChange]

theorem assignments_cons {a : Action} {x : Assignment} {l : List Action}
    (h : a.assignment? = some x) : assignments (a :: l) = x :: assignments l := by
  rw [assignments, List.filterMap_cons, h]
  rfl

theorem Property.ofName?_eq_iff {s t : String} {p q : Property} (hs : ofName? s = some p)
    (ht : ofName? t = some q) : Text.fold s = Text.fold t ↔ p = q := by
  constructor
  · intro h
    rw [ofName?_congr h, ht] at hs
    exact (Option.some.inj hs).symm
  · intro h
    rw [← fold_written hs, ← fold_written ht, h]

theorem Action.assignment?_bare (a : Action) : a.bare.assignment? = a.assignment? := by
  cases a <;> rfl

/-- A planned change sets a known property. -/
theorem Action.sets_known {actions : List Action} {l : List Planned} {n : Nat} {u : Uid}
    (hplan : planFrom n actions = .ok l) (hsets : ∀ a ∈ actions, a.Sets u) :
    ∀ p ∈ l, ∃ m s v q, p.action = .change u m s v ∧ ¬Text.sameName s "name" ∧
      Property.ofName? s = some q := by
  intro p hp
  have hmem : p.action ∈ actions := by
    rw [← planFrom_actions hplan]
    exact List.mem_map_of_mem hp
  obtain ⟨m, s, v, ha, hname⟩ := sets_iff.1 (hsets _ hmem)
  have hneeds := planFrom_requirements hplan p hp
  rw [ha] at hneeds
  have hclass : classify s = .ok p.requirements := hneeds
  cases hq : Property.ofName? s with
  | some q => exact ⟨m, s, v, q, ha, hname, hq⟩
  | none =>
    rw [classify_eq, hq] at hclass
    cases hclass

section Runs

variable {f g : Field} {p : Planned} {l : List Planned} {x : Assignment}

theorem applyChange_iff_assign (hx : p.action.assignment? = some x) :
    Record.applyChange f p = .ok g ↔ f.assign x = .ok g := by
  cases ha : p.action with
  | change u m s v =>
    rw [ha] at hx
    obtain ⟨q, hq, rfl⟩ := Option.map_eq_some_iff.1 hx
    rw [Record.applyChange_of_change ha, Field.setNamed_eq_ok]
    constructor
    · rintro ⟨q', hq', hset⟩
      rw [hq] at hq'
      cases hq'
      exact hset
    · exact fun hset => ⟨q, hq, hset⟩
  | _ =>
    rw [ha] at hx
    cases hx

/-- A run of changes is one of assignments. -/
theorem foldlM_applyChange_iff (h : ∀ p ∈ l, p.action.assignment?.isSome) :
    l.foldlM Record.applyChange f = .ok g ↔
      f.assignAll (assignments (l.map Planned.action)) = .ok g := by
  induction l generalizing f with
  | nil =>
    constructor
    all_goals
      intro h
      cases h
      rfl
  | cons p l ih =>
    obtain ⟨x, hx⟩ := Option.isSome_iff_exists.1 (h p List.mem_cons_self)
    have hrest := fun f => ih (f := f) fun q hq => h q (List.mem_cons_of_mem p hq)
    rw [List.map_cons, assignments_cons hx, foldlM_cons_eq_ok, Field.assignAll, foldlM_cons_eq_ok]
    exact exists_congr fun f1 => and_congr (applyChange_iff_assign hx) (hrest f1)

end Runs

namespace Record

theorem toList_of_properties (m : Dict String Planned) :
    toList { properties := m } = m.values := List.append_nil m.values

/-- Nothing but the last change of each property is recorded. -/
theorem ofHistory_of_sets {h : List Planned} {u : Uid}
    (ho : h.Pairwise fun a b => a.order < b.order)
    (hsets : ∀ p ∈ h, ∃ m s v q, p.action = .change u m s v ∧ ¬Text.sameName s "name" ∧
      Property.ofName? s = some q) :
    ∃ m : Dict String Planned, ofHistory h = .ok { properties := m } ∧
      (∀ s q, Property.ofName? s = some q → ((m.get? (Text.fold s)).isSome ↔
        q ∈ (assignments (h.map Planned.action)).map Prod.fst)) ∧
      assignments ((inOrder m.values).map Planned.action) =
        lastAssignments (assignments (h.map Planned.action)) := by
  induction h with
  | nil => exact ⟨∅, rfl, fun s q _ => by simp [assignments], rfl⟩
  | cons p h ih =>
    obtain ⟨n, s, v, q, ha, hname, hq⟩ := hsets p List.mem_cons_self
    obtain ⟨m, hm, hknown, hlast⟩ := ih (List.pairwise_cons.1 ho).2 fun b hb =>
      hsets b (List.mem_cons_of_mem p hb)
    have hx : p.action.assignment? = some (q, v) := by
      rw [ha, Action.assignment?, hq]
      rfl
    rw [List.map_cons, assignments_cons hx]
    by_cases hmem : q ∈ (assignments (h.map Planned.action)).map Prod.fst
    · have hsome := (hknown s q hq).2 hmem
      refine ⟨m, ofHistory_cons.2 ⟨_, hm, .overwritten ha hname (.inr hsome)⟩, fun t k ht => ?_, ?_⟩
      · rw [hknown t k ht, List.map_cons, List.mem_cons]
        refine ⟨.inr, fun hk => hk.elim (fun e => ?_) id⟩
        rw [e]
        exact hmem
      · rw [lastAssignments_of_mem hmem]
        exact hlast
    · have hnone : m.get? (Text.fold s) = none := by
        rw [← Option.not_isSome_iff_eq_none, hknown s q hq]
        exact hmem
      have hlt : ∀ c ∈ definitionChanges { properties := m }, p.order < c.order := fun c hc =>
        order_lt_of_history ho hm c (mem_toList_of_mem_definitionChanges hc)
      have hchanges : inOrder (m.insert (Text.fold s) p).values = p :: inOrder m.values :=
        definitionChanges_insert hnone hlt
      refine ⟨m.insert (Text.fold s) p, ofHistory_cons.2 ⟨_, hm, .change ha hname rfl hnone⟩,
        fun t k ht => ?_, ?_⟩
      · rw [Dict.get?_insert, List.map_cons, List.mem_cons]
        by_cases hts : Text.fold t = Text.fold s
        · rw [if_pos hts]
          exact iff_of_true rfl (.inl ((Property.ofName?_eq_iff ht hq).1 hts))
        · rw [if_neg hts, hknown t k ht, or_iff_right]
          exact fun e => hts ((Property.ofName?_eq_iff ht hq).2 e)
      · rw [lastAssignments_of_not_mem hmem, hchanges, List.map_cons, assignments_cons hx, hlast]

/-- The recorded changes are the last assignments. -/
theorem changes_of_sets {h : List Planned} {u : Uid} {n : Nat} {actions : List Action}
    (hplan : planFrom n actions = .ok h) (hsets : ∀ a ∈ actions, a.Sets u) :
    ∃ m : Dict String Planned, ofHistory h = .ok { properties := m } ∧
      ∀ f g, (inOrder m.values).foldlM applyChange f = .ok g ↔
        f.assignAll (lastAssignments (assignments actions)) = .ok g := by
  have hknown := Action.sets_known hplan hsets
  obtain ⟨m, hm, -, hlast⟩ := ofHistory_of_sets (planFrom_orders hplan).2 hknown
  have hsome : ∀ p ∈ inOrder m.values, p.action.assignment?.isSome := by
    intro p hp
    rw [mem_inOrder, ← toList_of_properties] at hp
    obtain ⟨q, hq, e⟩ := bare_of_history hm hp
    obtain ⟨n, s, v, x, ha, -, hx⟩ := hknown q hq
    have hbare : p.action.bare = q.action.bare := congrArg Planned.action e
    rw [← Action.assignment?_bare, hbare, Action.assignment?_bare, ha, Action.assignment?, hx]
    rfl
  refine ⟨m, hm, fun f g => ?_⟩
  rw [foldlM_applyChange_iff hsome, hlast, planFrom_actions hplan]

end Record

namespace Reduction

variable {u : Uid} {l k : List Planned} {f g : Field} {actions : List Action}

/-- Edits of one field are reduced as its history is. -/
theorem of_one_field (ho : l.Pairwise fun a b => a.order < b.order) (hu : ∀ p ∈ l, p.uid = u) :
    (∃ r, Reduction.of l = .ok r ∧ r.ordered = k) ↔
      ∃ s, Record.ofHistory l = .ok s ∧ inOrder s.settled.toList = k := by
  have hin : inOrder l = l := inOrder_eq_self (ho.imp fun h => Nat.le_of_lt h)
  have hself : editsOf u l = l := List.filter_eq_self.2 (by simpa using hu)
  have hordered : ∀ {r}, Reduction.of l = .ok r →
      ∃ s, Record.ofHistory l = .ok s ∧ r.ordered = inOrder s.settled.toList := by
    intro r hr
    obtain ⟨s, hs, e⟩ := editsOf_ordered hr u
    rw [hin, hself] at hs
    refine ⟨s, hs, ?_⟩
    rw [← e]
    refine (List.filter_eq_self.2 fun q hq => ?_).symm
    obtain ⟨p, hp, hbare⟩ := bare_of_mem_ordered hr hq
    simpa [Planned.uid_of_bare hbare] using hu p hp
  constructor
  · rintro ⟨r, hr, rfl⟩
    obtain ⟨s, hs, e⟩ := hordered hr
    exact ⟨s, hs, e.symm⟩
  · rintro ⟨s, hs, rfl⟩
    have hs' : Record.ofHistory (editsOf u (inOrder l)) = .ok s := by
      rw [hin, hself]
      exact hs
    obtain ⟨r, hr, -⟩ := of_editsOf hs'
    rw [hself] at hr
    obtain ⟨s', hs', e⟩ := hordered hr
    cases hs.symm.trans hs'
    exact ⟨r, hr, e⟩

/-- The insertion stands alone, with the changes in its definition. -/
theorem ordered_of_insertion {p : Planned} {m : Dict String Planned} {h : List Planned} {i : Nat}
    (ho : (p :: h).Pairwise fun a b => a.order < b.order) (hu : ∀ q ∈ p :: h, q.uid = u)
    (hp : p.action = .insert u i f) (hm : Record.ofHistory h = .ok { properties := m }) :
    (∃ r q, Reduction.of (p :: h) = .ok r ∧ r.ordered = [q] ∧ q.action = .insert u i g) ↔
      (inOrder m.values).foldlM Record.applyChange f = .ok g := by
  constructor
  · rintro ⟨r, q, hr, hq, ha⟩
    obtain ⟨s, hs, e⟩ := (of_one_field ho hu).1 ⟨r, hr, hq⟩
    obtain ⟨s0, hs0, habsorbs⟩ := Record.ofHistory_cons.1 hs
    cases hm.symm.trans hs0
    cases habsorbs with
    | insert hinsert _ hfold =>
      rw [hp] at hinsert
      cases hinsert
      cases (List.cons.inj e).1
      cases ha
      exact hfold
    | cancel _ hremoved => cases hremoved
    | rename hother | merge hother | change hother | overwritten hother | remove hother
    | move hother | superseded hother =>
      rw [hp] at hother
      cases hother
  · intro hfold
    have hs := Record.ofHistory_cons.2 ⟨_, hm, .insert hp rfl hfold⟩
    obtain ⟨r, hr, e⟩ := (of_one_field ho hu).2 ⟨_, hs, rfl⟩
    exact ⟨r, _, hr, e, rfl⟩

/-- The changes that are kept lead to the same definition, in order or folded into an insertion,
exactly if the last assignments keep the effects of all; and so they do if `type` and `primaryKey`
are set at most once. -/
theorem keeps_effects_iff (i : Nat) (hplan : planAll actions = .ok l)
    (hsets : ∀ a ∈ actions, a.Sets u) (hrun : l.foldlM Record.applyChange f = .ok g) :
    (∃ r, Reduction.of l = .ok r ∧ (r.ordered.foldlM Record.applyChange f = .ok g ↔
      f.KeepsEffects (assignments actions))) ∧
    (∃ l', planAll (.insert u i f :: actions) = .ok l' ∧
      ((∃ r q, Reduction.of l' = .ok r ∧ r.ordered = [q] ∧ q.action = .insert u i g) ↔
        f.KeepsEffects (assignments actions))) ∧
    (((assignments actions).map Prod.fst).count .type ≤ 1 →
      ((assignments actions).map Prod.fst).count .primaryKey ≤ 1 →
        f.KeepsEffects (assignments actions)) := by
  have hsome : ∀ p ∈ l, p.action.assignment?.isSome := by
    intro p hp
    obtain ⟨n, s, v, x, ha, -, hx⟩ := Action.sets_known hplan hsets p hp
    rw [ha, Action.assignment?, hx]
    rfl
  have huid : ∀ {n h}, planFrom n actions = .ok h → ∀ p ∈ h, p.uid = u := by
    intro n h hh p hp
    obtain ⟨_, _, _, _, ha, -⟩ := Action.sets_known hh hsets p hp
    rw [Planned.uid, ha]
    rfl
  rw [foldlM_applyChange_iff hsome, planAll_actions hplan] at hrun
  have hkeeps := Field.assignAll_lastAssignments_iff hrun
  refine ⟨?_, ?_, Field.keepsEffects_of_once hrun⟩
  · obtain ⟨m, hm, hfold⟩ := Record.changes_of_sets hplan hsets
    obtain ⟨r, hr, e⟩ := (of_one_field (planAll_ascending hplan) (huid hplan)).2 ⟨_, hm, rfl⟩
    refine ⟨r, hr, ?_⟩
    rw [e, ← hkeeps, ← hfold, Record.settled_of_rename_eq_none rfl, Record.toList_of_properties]
  · have hneeds : ∀ a ∈ actions, ∃ r, a.requirements = .ok r := by
      intro a ha
      rw [← planAll_actions hplan] at ha
      obtain ⟨p, hp, rfl⟩ := List.mem_map.1 ha
      exact ⟨_, planFrom_requirements hplan p hp⟩
    obtain ⟨h, hh⟩ := planFrom_ok hneeds 1
    obtain ⟨m, hm, hfold⟩ := Record.changes_of_sets hh hsets
    obtain ⟨hle, hlt⟩ := planFrom_orders hh
    refine ⟨⟨0, { physical := true }, .insert u i f⟩ :: h,
      bind_eq_ok.2 ⟨_, rfl, bind_eq_ok.2 ⟨h, hh, rfl⟩⟩, ?_⟩
    rw [← hkeeps, ← hfold]
    refine ordered_of_insertion (List.pairwise_cons.2 ⟨hle, hlt⟩) (fun q hq => ?_) rfl hm
    rcases List.mem_cons.1 hq with rfl | hq
    · rfl
    · exact huid hh q hq

def countedField : Field :=
  { name := "d", type := .integer, constraints := { autoIncrement := true } }

/-- To a type that cannot be counted up, and back. -/
def toTextAndBack : List Action :=
  [.change ⟨1⟩ "d" "type" (.text "Text"), .change ⟨1⟩ "d" "type" (.text "Integer")]

theorem keeps_effects_iff_of_return :
    ∃ l g r, planAll toTextAndBack = .ok l ∧ l.foldlM Record.applyChange countedField = .ok g ∧
      Reduction.of l = .ok r ∧
      (r.ordered.foldlM Record.applyChange countedField = .ok g ↔
        countedField.KeepsEffects (assignments toTextAndBack)) ∧
      ∃ l', planAll (.insert ⟨1⟩ 0 countedField :: toTextAndBack) = .ok l' ∧
        ((∃ r q, Reduction.of l' = .ok r ∧ r.ordered = [q] ∧ q.action = .insert ⟨1⟩ 0 g) ↔
          countedField.KeepsEffects (assignments toTextAndBack)) := by
  obtain ⟨l, g, hplan, hrun⟩ : ∃ l g, planAll toTextAndBack = .ok l ∧
      l.foldlM Record.applyChange countedField = .ok g := ⟨_, _, rfl, rfl⟩
  obtain ⟨⟨r, hr, hkept⟩, hfolded, -⟩ := keeps_effects_iff (u := ⟨1⟩) 0 hplan (by decide) hrun
  exact ⟨l, g, r, hplan, hrun, hr, hkept, hfolded⟩

/-- All changes end the counting, and the last one of them leaves it as it is. -/
theorem effect_lost :
    ∃ l g r, planAll toTextAndBack = .ok l ∧ (∀ a ∈ toTextAndBack, a.Sets ⟨1⟩) ∧
      l.foldlM Record.applyChange countedField = .ok g ∧ Reduction.of l = .ok r ∧
      r.ordered.foldlM Record.applyChange countedField ≠ .ok g ∧
      ∃ l' r', planAll (.insert ⟨1⟩ 0 countedField :: toTextAndBack) = .ok l' ∧
        Reduction.of l' = .ok r' ∧ r'.ordered.map Planned.action = [.insert ⟨1⟩ 0 countedField] ∧
        countedField ≠ g := by
  refine ⟨_, _, _, rfl, by decide, rfl, rfl, ?_, _, _, rfl, rfl, ?_, ?_⟩
  · decide +kernel
  · decide +kernel
  · decide +kernel

end Reduction

end TableAlteration
