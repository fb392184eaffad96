import TableAlteration.Proofs.Edit.LastEdits
import TableAlteration.Proofs.Edit.Coherence

namespace TableAlteration

namespace Record

/-- What remains of the edits of a field that is neither inserted nor removed. -/
structure Changed (start : String) (h : List Planned) (r : Record) : Prop where
  removal : r.removal = none
  insertion : r.insertion = none
  rename : r.rename = ((lastOf Action.isRename h).map (·.withFieldName start)).filter fun p =>
    !p.action.isIdleRename
  properties : ∀ k, r.properties.get? k =
    (lastOf (Action.setsKey k) h).map (·.withFieldName start)
  movement : r.movement = (lastOf Action.isMove h).map (·.withFieldName start)
  /-- The rename leads to the name in the end, -/
  target : ∀ p n, r.rename = some p → p.action.newName? = some n →
    n = nameAfterAll start (h.map Planned.action)
  /-- and there is none if the field has that name already. -/
  idle : (∀ p ∈ h, p.action.isRename → p.action.newName?.isSome) →
    (r.rename = none ↔ Text.sameName (nameAfterAll start (h.map Planned.action)) start)

theorem Latest.changed {start : String} {h : List Planned} {r : Record} (hl : Latest start h r) :
    Changed start h r.settled := by
  have hrename : r.settled.rename =
      ((lastOf Action.isRename h).map (·.withFieldName start)).filter fun p =>
        !p.action.isIdleRename := by
    rw [← hl.rename]
    unfold settled renamesIdly
    cases hr : r.rename with
    | none => simp [hr]
    | some p => cases hi : p.action.isIdleRename <;> simp [hr, hi, Option.filter_some]
  have hidle : ∀ (q : Planned) n, q.action.newName? = some n →
      (q.withFieldName start).action.isIdleRename = Text.sameName n start := by
    intro q n hq
    rw [Action.isIdleRename, Planned.newName?_withFieldName, hq, Planned.withFieldName,
      Action.fieldName_withFieldName]
    rfl
  refine ⟨?_, ?_, hrename, ?_, ?_, fun p n hp hn => ?_, fun hall => ?_⟩
  · unfold settled
    split <;> exact hl.removal
  · unfold settled
    split <;> exact hl.insertion
  · unfold settled
    split <;> exact hl.properties
  · unfold settled
    split <;> exact hl.movement
  · rw [hrename, Option.filter_eq_some_iff, Option.map_eq_some_iff] at hp
    obtain ⟨⟨q, hq, rfl⟩, -⟩ := hp
    rw [Planned.newName?_withFieldName] at hn
    exact (nameAfterAll_of_rename hq hn).symm
  · rw [hrename]
    cases hlast : lastOf Action.isRename h with
    | none => simp [nameAfterAll_of_no_rename hlast, Text.sameName_refl]
    | some q =>
      obtain ⟨hq, hqr⟩ := List.mem_filter.1 (List.mem_of_getLast? hlast)
      obtain ⟨n, hn⟩ := Option.isSome_iff_exists.1 (hall q hq hqr)
      rw [nameAfterAll_of_rename hlast hn, Option.map_some, Option.filter_eq_none_iff]
      simp [hidle q n hn]

end Record

/-- What remains of a field's edits: nothing of one that is inserted and removed, of one that is
removed the removal, of one that is inserted its insertion and the last move, and of any other the
last edit of each kind. -/
structure NormalForm (start : String) (h : List Planned) (o : Option Record) : Prop where
  cancelled : (∃ p ∈ h, p.action.isInsertion) → (∃ p ∈ h, p.action.isRemoval) → o = none
  removed : (∀ p ∈ h, p.action.isInsertion = false) → ∀ p ∈ h, p.action.isRemoval →
    o = some { removal := some (p.withFieldName start) }
  inserted : (∀ p ∈ h, p.action.isRemoval = false) →
    ∀ p ∈ h, ∀ u j f, p.action = .insert u j f → ∃ s g,
      o = some
        { insertion := some { p with action := .insert u j g }
          movement := (lastOf Action.isMove h).map (·.withFieldName start) } ∧
      g.name = nameAfterAll start (h.map Planned.action) ∧
      Record.Latest start h.tail s ∧ s.foldInto f = .ok g
  changed : (∀ p ∈ h, p.action.isInsertion = false ∧ p.action.isRemoval = false) →
    ∃ s, o = (some s).filter (fun s => !s.isEmpty) ∧ Record.Changed start h s

theorem Record.Changed.named {start : String} {h : List Planned} {r : Record}
    (hc : Record.Changed start h r) {p : Planned} (hp : p ∈ r.toList) :
    p.action.fieldName = start := by
  have named : ∀ o : Option Planned, o.map (·.withFieldName start) = some p →
      p.action.fieldName = start := by
    intro o ho
    obtain ⟨q, -, rfl⟩ := Option.map_eq_some_iff.1 ho
    exact Action.fieldName_withFieldName ..
  rcases Record.mem_toList.1 hp with hp | hp | hp | ⟨k, hp⟩ | hp
  · rw [hc.removal] at hp
    cases hp
  · rw [hc.insertion] at hp
    cases hp
  · rw [hc.rename] at hp
    exact named _ (Option.filter_eq_some_iff.1 hp).1
  · rw [hc.properties] at hp
    exact named _ hp
  · rw [hc.movement] at hp
    exact named _ hp

/-- Whatever remains, but for an insertion, names the field as it is called at the start. -/
theorem NormalForm.named {start : String} {h : List Planned} {r : Record}
    (hn : NormalForm start h (some r)) {p : Planned} (hp : p ∈ r.toList)
    (hi : p.action.isInsertion = false) : p.action.fieldName = start := by
  by_cases hins : ∃ q ∈ h, q.action.isInsertion
  · by_cases hrem : ∃ q ∈ h, q.action.isRemoval
    · cases hn.cancelled hins hrem
    · obtain ⟨q, hq, hqi⟩ := hins
      obtain ⟨u, j, f, ha⟩ : ∃ u j f, q.action = .insert u j f := by
        cases ha : q.action with
        | insert u j f => exact ⟨u, j, f, rfl⟩
        | _ => simp [ha, Action.isInsertion] at hqi
      obtain ⟨s, g, hr, -⟩ := hn.inserted (by simpa using hrem) q hq u j f ha
      cases hr
      simp only [Record.mem_toList, reduceCtorEq, Option.some.injEq, false_or,
        Option.map_eq_some_iff] at hp
      rcases hp with rfl | ⟨k, hk⟩ | ⟨m, -, rfl⟩
      · cases hi
      · cases hk
      · exact Action.fieldName_withFieldName ..
  · by_cases hrem : ∃ q ∈ h, q.action.isRemoval
    · obtain ⟨q, hq, hqr⟩ := hrem
      have hr := hn.removed (by simpa using hins) q hq hqr
      cases hr
      obtain rfl := List.mem_singleton.1 hp
      exact Action.fieldName_withFieldName ..
    · have hstays : ∀ q ∈ h, q.action.isInsertion = false ∧ q.action.isRemoval = false :=
        fun q hq => ⟨by simpa using fun e => hins ⟨q, hq, e⟩,
          by simpa using fun e => hrem ⟨q, hq, e⟩⟩
      obtain ⟨s, hs, hc⟩ := hn.changed hstays
      obtain rfl := Option.some.inj (Option.filter_eq_some_iff.1 hs.symm).1
      exact hc.named hp

theorem IsHistory.narrates {start : String} {l : List Action} (h : IsHistory start l)
    (hi : ∀ a ∈ l, a.isInsertion = false) : Narrates start l := by
  cases l with
  | nil => exact h
  | cons a rest =>
    cases a with
    | insert u j f => cases hi _ List.mem_cons_self
    | _ => exact h

/-- An insertion is the first edit. -/
theorem IsHistory.of_insertion {start : String} {h : List Planned}
    (hh : IsHistory start (h.map Planned.action)) {p : Planned} (hp : p ∈ h)
    (hi : p.action.isInsertion) :
    ∃ u j f rest, h = p :: rest ∧ p.action = .insert u j f ∧ f.name = start ∧
      Narrates start (rest.map Planned.action) := by
  have hno : ∀ rest : List Planned, Narrates start (rest.map Planned.action) → p ∉ rest := by
    intro rest hn hp
    rw [hn.follows.lives.not_insertion p hp] at hi
    cases hi
  cases h with
  | nil => cases hp
  | cons q rest =>
    cases hq : q.action with
    | insert u j f =>
      rw [List.map_cons, hq] at hh
      obtain ⟨hname, hn⟩ := hh
      obtain rfl := (List.mem_cons.1 hp).resolve_right (hno rest hn)
      exact ⟨u, j, f, rest, rfl, hq, hname, hn⟩
    | _ =>
      have hn : Narrates start ((q :: rest).map Planned.action) := by
        rw [List.map_cons, hq] at hh ⊢
        exact hh
      exact absurd hp (hno _ hn)

theorem Lives.removal_unique {h : List Planned} (hl : Lives h) {p q : Planned} (hp : p ∈ h)
    (hq : q ∈ h) (hpr : p.action.isRemoval) (hqr : q.action.isRemoval) : p = q := by
  induction h with
  | nil => cases hp
  | cons a h ih =>
    obtain ⟨-, hend, hl⟩ := hl
    by_cases ha : a.action.isRemoval
    · rw [hend ha, List.mem_singleton] at hp hq
      rw [hp, hq]
    · rcases List.mem_cons.1 hp with rfl | hp
      · exact absurd hpr ha
      · rcases List.mem_cons.1 hq with rfl | hq
        · exact absurd hqr ha
        · exact ih hl hp hq

namespace Record

variable {start : String} {h : List Planned} {r : Record} {p : Planned}

/-- Of a field that is removed exactly the removal is left. -/
theorem eq_removal_of_history (hn : Narrates start (h.map Planned.action))
    (hr : ofHistory h = .ok r) (hp : p ∈ h) (hrem : p.action.isRemoval) :
    r = { removal := some (p.withFieldName start) } := by
  obtain ⟨q, rfl⟩ := removed_of_lives hn.follows.lives hr ⟨p, hp, hrem⟩
  have hq := removal_eq_of_history hn hr
  obtain ⟨q', hlast, rfl⟩ := Option.map_eq_some_iff.1 hq.symm
  obtain ⟨hmem, hrem'⟩ := List.mem_filter.1 (List.mem_of_getLast? hlast)
  rw [hn.follows.lives.removal_unique hmem hp hrem' hrem]

/-- An inserted field keeps its insertion, with its changes made, and the last move. -/
theorem eq_insertion_of_history {v : Uid} {j : Nat} {f : Field} (ha : p.action = .insert v j f)
    (hf : f.name = start) (hn : Narrates start (h.map Planned.action))
    (hu : ∀ q ∈ h, q.uid = v) (hkept : ∀ q ∈ h, q.action.isRemoval = false)
    (hr : ofHistory (p :: h) = .ok r) :
    ∃ s g, r = { insertion := some { p with action := .insert v j g }, movement := s.movement } ∧
      g.name = nameAfterAll start (h.map Planned.action) ∧ Latest start h s ∧
      s.foldInto f = .ok g := by
  obtain ⟨s, hs, habs⟩ := ofHistory_cons.1 hr
  have hl := latest_of_history hn hkept hs
  have tidy := tidy_of_history hu hs
  cases habs with
  | cancel ha' hsome =>
    rw [hl.removal] at hsome
    cases hsome
  | @insert v' j' f' g ha' hnone hg =>
    rw [ha] at ha'
    cases ha'
    exact ⟨s, g, by simp [hl.removal], hl.name_of_foldInto tidy hf hg, hl, hg⟩
  | rename ha' | merge ha' | change ha' | overwritten ha' | remove ha' | move ha' | superseded ha' =>
    rw [ha] at ha'
    cases ha'

end Record

theorem Record.normalForm_of_history {start : String} {h : List Planned} {r : Record} {u : Uid}
    (hu : ∀ p ∈ h, p.uid = u) (hh : IsHistory start (h.map Planned.action))
    (hr : Record.ofHistory h = .ok r) :
    NormalForm start h ((some r.settled).filter fun s => !s.isEmpty) := by
  have hnarrates (hi : ∀ p ∈ h, p.action.isInsertion = false) :
      Narrates start (h.map Planned.action) := hh.narrates (by simpa using hi)
  refine ⟨?_, fun hi p hp hrem => ?_, fun hkept p hp v j f ha => ?_, fun hstays => ?_⟩
  · intro hi hrem
    obtain ⟨p, hp, hi⟩ := hi
    obtain ⟨q, hq, hrem⟩ := hrem
    obtain ⟨v, j, f, rest, rfl, ha, -, hn⟩ := hh.of_insertion hp hi
    obtain ⟨s, hs, habs⟩ := Record.ofHistory_cons.1 hr
    have hq : q ∈ rest := by
      rcases List.mem_cons.1 hq with rfl | hq
      · simp [ha, Action.isRemoval] at hrem
      · exact hq
    have hsrem := Record.eq_removal_of_history hn hs hq hrem
    have habsorb := Record.absorb_eq_ok.2 habs
    rw [Record.absorb, ha, hsrem] at habsorb
    cases habsorb
    rfl
  · rw [Record.eq_removal_of_history (hnarrates hi) hr hp hrem]
    rfl
  · obtain ⟨v', j', f', rest, rfl, ha', hname, hn⟩ :=
      hh.of_insertion hp (by rw [ha]; rfl)
    rw [ha] at ha'
    cases ha'
    have hpu : v = u := by
      rw [← hu p List.mem_cons_self, Planned.uid, ha]
      rfl
    obtain ⟨s, g, rfl, hg, hl, hfold⟩ := Record.eq_insertion_of_history ha hname hn
      (fun q hq => hpu ▸ hu q (List.mem_cons_of_mem p hq))
      (fun q hq => hkept q (List.mem_cons_of_mem p hq)) hr
    refine ⟨s, g, ?_, ?_, hl, hfold⟩
    · rw [Record.settled_of_rename_eq_none rfl, hl.movement, lastOf_cons, ha]
      simp only [Action.isMove, Bool.false_eq_true, if_false, Option.or_none]
      rfl
    · rw [hg, List.map_cons, ha]
      rfl
  · have hn := hnarrates fun p hp => (hstays p hp).1
    have hl := Record.latest_of_history hn (fun p hp => (hstays p hp).2) hr
    exact ⟨r.settled, rfl, hl.changed⟩

/-- The reduction brings the edits of a field into their normal form, whatever edits of other
fields stand between them, and they name the field as it is called at the start. -/
theorem Reduction.normalForm {actions : List Action} {l : List Planned} {r : Reduction} {u : Uid}
    {start : String} (hp : planAll actions = .ok l) (hr : Reduction.of l = .ok r)
    (hh : IsHistory start (actions.filter fun a => a.uid = u)) :
    NormalForm start (editsOf u l) (r.field? u) ∧
      ∀ s, r.field? u = some s → ∀ p ∈ s.toList, p.action.isInsertion = false →
        p.action.fieldName = start := by
  obtain ⟨s, hs, hfield⟩ := Reduction.field?_of hr u
  rw [Record.kept?] at hfield
  rw [inOrder_of_planAll hp] at hs
  have hu : ∀ p ∈ editsOf u l, p.uid = u := fun p hp => (mem_editsOf.1 hp).2
  rw [← actions_editsOf (planAll_actions hp)] at hh
  have hn := Record.normalForm_of_history hu hh hs
  rw [← hfield] at hn
  refine ⟨hn, fun s hs p hp hi => ?_⟩
  rw [hs] at hn
  exact hn.named hp hi

/-- A field that is renamed twice, changed and moved, while another one is inserted. -/
theorem Reduction.normalForm_of_rename_chain :
    ∃ l r, planAll
        [.rename ⟨0⟩ "a" " b ", .insert ⟨1⟩ 0 { name := "a", type := .date },
          .change ⟨0⟩ "b" "caption" (.text "x"), .move ⟨0⟩ "b" 1, .rename ⟨1⟩ "a" "d",
          .rename ⟨0⟩ "b" "c", .change ⟨0⟩ "c" "Caption" (.text "y"), .move ⟨0⟩ "c" 2] = .ok l ∧
      Reduction.of l = .ok r ∧ NormalForm "a" (editsOf ⟨0⟩ l) (r.field? ⟨0⟩) ∧
      ∃ s, r.field? ⟨0⟩ = some s ∧
        s.rename = some ⟨5, { physical := true, main := true }, .rename ⟨0⟩ "a" "c"⟩ ∧
        s.properties.values = [⟨6, { main := true }, .change ⟨0⟩ "a" "Caption" (.text "y")⟩] ∧
        s.movement = some ⟨7, { main := true }, .move ⟨0⟩ "a" 2⟩ := by
  have hh : IsHistory "a" (List.filter (fun a => a.uid = ⟨0⟩)
      [.rename ⟨0⟩ "a" " b ", .insert ⟨1⟩ 0 { name := "a", type := .date },
        .change ⟨0⟩ "b" "caption" (.text "x"), .move ⟨0⟩ "b" 1, .rename ⟨1⟩ "a" "d",
        .rename ⟨0⟩ "b" "c", .change ⟨0⟩ "c" "Caption" (.text "y"), .move ⟨0⟩ "c" 2]) := by
    decide
  exact ⟨_, _, rfl, rfl, (Reduction.normalForm (by rfl) (by rfl) hh).1, _, rfl, rfl, rfl, rfl⟩

end TableAlteration
