import TableAlteration.Proofs.Edit.Ends
import TableAlteration.Proofs.Edit.Places
import TableAlteration.Proofs.Edit.Plans

namespace TableAlteration

/-- Edits that belong together. `home` tells which column of the table a number stands for; other
numbers stand for inserted fields, whose first edit is their insertion. Each edit names its field as
it is called then, and nothing follows a removal. -/
structure Coherent (t : Table) (home : Uid → Option Nat) (actions : List Action) : Prop where
  distinct : ∀ u v i, home u = some i → home v = some i → u = v
  existing : ∀ u i, home u = some i →
    ∃ f, t.fields[i]? = some f ∧ Follows f.name (actions.filter fun a => a.uid = u)
  inserted : ∀ u, home u = none → (actions.filter fun a => a.uid = u) = [] ∨
    ∃ i f rest, (actions.filter fun a => a.uid = u) = .insert u i f :: rest ∧ Follows f.name rest

variable {t : Table} {home : Uid → Option Nat} {actions : List Action} {l : List Planned}
  {u : Uid}

theorem actions_editsOf (h : l.map Planned.action = actions) (u : Uid) :
    (editsOf u l).map Planned.action = actions.filter fun a => a.uid = u := by
  rw [← h, editsOf, List.filter_map]
  rfl

namespace Coherent

theorem addressed (hc : Coherent t home actions) (h : l.map Planned.action = actions) :
    Addressed t home l := by
  refine ⟨hc.distinct, fun u i p rest hu he => ?_, fun p hp hi => ?_⟩
  · obtain ⟨f, hf, hfollows⟩ := hc.existing u i hu
    rw [← actions_editsOf h, he] at hfollows
    exact ⟨f, hf, hfollows.head⟩
  · cases hu : home p.uid with
    | none => rfl
    | some i =>
      obtain ⟨f, -, hfollows⟩ := hc.existing p.uid i hu
      rw [← actions_editsOf h] at hfollows
      have hno := hfollows.lives.not_insertion p (mem_editsOf.2 ⟨hp, rfl⟩)
      rw [hi] at hno
      cases hno

theorem living (hc : Coherent t home actions) (h : l.map Planned.action = actions) :
    Living t home l := by
  refine ⟨fun u i hu => ?_, fun u hu => ?_⟩
  · obtain ⟨f, hf, hfollows⟩ := hc.existing u i hu
    rw [← actions_editsOf h] at hfollows
    exact ⟨⟨f, hf⟩, hfollows.lives⟩
  · have hl := hc.inserted u hu
    rw [← actions_editsOf h, List.map_eq_nil_iff] at hl
    rcases hl with hl | ⟨i, f, rest, he, hfollows⟩
    · exact .inl hl
    · obtain ⟨p, k, hk, hp, rfl⟩ := List.map_eq_cons_iff.1 he
      exact .inr ⟨p, k, i, f, hk, hp, hfollows.lives⟩

/-- The record of a field keeps what affects the order. -/
theorem placing_perm (hc : Coherent t home actions) (hp : planAll actions = .ok l)
    (hk : KeepsPlaces (actions.filter fun a => a.uid = u)) {r : Record}
    (hr : Record.ofHistory (editsOf u l) = .ok r) :
    (r.placing.map Planned.bare).Perm (placings (editsOf u l)) := by
  have hactions := planAll_actions hp
  have hu : ∀ q ∈ editsOf u l, q.uid = u := fun q hq => (mem_editsOf.1 hq).2
  rw [← actions_editsOf hactions] at hk
  cases hh : home u with
  | some i =>
    obtain ⟨f, -, hfollows⟩ := hc.existing u i hh
    rw [← actions_editsOf hactions] at hfollows
    exact Record.placing_of_lives hu hfollows.lives hk hr
  | none =>
    have hl := hc.inserted u hh
    rw [← actions_editsOf hactions, List.map_eq_nil_iff] at hl
    rcases hl with he | ⟨i, f, rest, he, hfollows⟩
    · rw [he] at hr ⊢
      cases hr
      exact .refl _
    · obtain ⟨p, k, hk', ha, rfl⟩ := List.map_eq_cons_iff.1 he
      rw [hk'] at hr hu hk ⊢
      have hins : ∀ s, Record.ofHistory k = .ok s → s.insertion = none := fun s hs =>
        (Record.named_of_history hfollows hs).1
      exact Record.placing_of_inserted ha (fun q hq => hu q (List.mem_cons_of_mem p hq))
        hfollows.lives hins hk hr

/-- So do its remaining edits. -/
theorem placings_editsOf_ordered (hc : Coherent t home actions) (hp : planAll actions = .ok l)
    (hk : KeepsPlaces (actions.filter fun a => a.uid = u)) {r : Reduction}
    (hr : Reduction.of l = .ok r) :
    (placings (editsOf u r.ordered)).Perm (placings (editsOf u l)) := by
  obtain ⟨s, hs, he⟩ := Reduction.editsOf_ordered hr u
  rw [inOrder_of_planAll hp] at hs
  have tidy := Record.tidy_of_history (fun q hq => (mem_editsOf.1 hq).2) hs
  have hrecord : (placings (inOrder s.settled.toList)).Perm (placings s.settled.toList) :=
    ((inOrder_perm _).filter _).map _
  rw [he]
  refine hrecord.trans ?_
  rw [tidy.settled.placings_toList, Record.placing_settled]
  exact hc.placing_perm hp hk hs

/-- The remaining edits of a field of the table have its name at the start. -/
theorem addressed_ordered (hc : Coherent t home actions) (hp : planAll actions = .ok l)
    {r : Reduction} (hr : Reduction.of l = .ok r) : Addressed t home r.ordered := by
  have hactions := planAll_actions hp
  have hrecord : ∀ u i, home u = some i → ∃ f, t.fields[i]? = some f ∧
      ∀ p ∈ editsOf u r.ordered, Text.sameName p.action.fieldName f.name ∧
        p.action.isInsertion = false := by
    intro u i hu
    obtain ⟨f, hf, hfollows⟩ := hc.existing u i hu
    rw [← actions_editsOf hactions] at hfollows
    obtain ⟨s, hs, he⟩ := Reduction.editsOf_ordered hr u
    rw [inOrder_of_planAll hp] at hs
    obtain ⟨hins, hnamed⟩ := Record.named_of_history hfollows hs
    have tidy := Record.tidy_of_history (fun q hq => (mem_editsOf.1 hq).2) hs
    refine ⟨f, hf, fun p hp => ?_⟩
    rw [he, mem_inOrder] at hp
    have hp := Record.mem_of_mem_settled hp
    exact ⟨hnamed p hp, tidy.isInsertion_eq_false hins hp⟩
  refine ⟨hc.distinct, fun u i p rest hu he => ?_, fun p hp hi => ?_⟩
  · obtain ⟨f, hf, hall⟩ := hrecord u i hu
    exact ⟨f, hf, (hall p (by rw [he]; exact List.mem_cons_self)).1⟩
  · cases hu : home p.uid with
    | none => rfl
    | some i =>
      obtain ⟨f, -, hall⟩ := hrecord p.uid i hu
      have hno := (hall p (mem_editsOf.2 ⟨hp, rfl⟩)).2
      rw [hi] at hno
      cases hno

end Coherent

theorem lives_of_stays {h : List Planned}
    (hs : ∀ q ∈ h, q.action.isInsertion = false ∧ q.action.isRemoval = false) : Lives h := by
  induction h with
  | nil => trivial
  | cons p h ih =>
    obtain ⟨hi, hr⟩ := hs p List.mem_cons_self
    refine ⟨hi, fun e => ?_, ih fun q hq => hs q (List.mem_cons_of_mem p hq)⟩
    rw [hr] at e
    cases e

/-- A field that lives is there in the end unless it is removed. -/
theorem effects_eq_none_iff {h : List Planned} {f : Field} {s : Option Field} (hl : Lives h)
    (hs : h.foldlM Planned.effect (some f) = .ok s) :
    s = none ↔ ∃ p ∈ h, p.action.isRemoval := by
  constructor
  · intro hnone
    by_contra hkept
    have hstays : ∀ q ∈ h, q.action.isInsertion = false ∧ q.action.isRemoval = false :=
      fun q hq => ⟨hl.not_insertion q hq, by simpa using fun e => hkept ⟨q, hq, e⟩⟩
    rw [effects_of_stays hstays, hnone] at hs
    obtain ⟨g, -, e⟩ := map_eq_ok.1 hs
    cases e
  · intro hrem
    exact effects_of_removed hl hrem hs

/-- A field is not there in the end if it never was or if it is removed. -/
theorem Living.fate_eq_none_iff {s : Option Field} (hl : Living t home l)
    (hs : fate t home l u = .ok s) :
    s = none ↔ home u = none ∧ editsOf u l = [] ∨ ∃ p ∈ editsOf u l, p.action.isRemoval := by
  unfold fate at hs
  cases hu : home u with
  | some i =>
    obtain ⟨⟨f, hf⟩, hlives⟩ := hl.existing u i hu
    have hstart : start t home u = some f := by simp [start, hu, hf]
    rw [hstart] at hs
    simpa using effects_eq_none_iff hlives hs
  | none =>
    rw [start_of_home_eq_none hu] at hs
    rcases hl.inserted u hu with he | ⟨p, h, j, f, he, hp, hlives⟩
    · rw [he] at hs ⊢
      cases hs
      simp
    · rw [he] at hs ⊢
      obtain ⟨s1, h1, h2⟩ := foldlM_cons_eq_ok.1 hs
      rw [Planned.effect_of_insertion hp] at h1
      cases h1
      have hno : p.action.isRemoval = false := by rw [hp]; rfl
      simpa [hno] using effects_eq_none_iff hlives h2

namespace Record

variable {h : List Planned} {p : Planned} {r : Record} {name : String}

theorem removal_eq_none_of_history (hu : ∀ q ∈ h, q.uid = u)
    (hkept : ∀ q ∈ h, q.action.isRemoval = false) (hr : ofHistory h = .ok r) :
    r.removal = none := by
  by_contra hne
  obtain ⟨c, hc, hrem⟩ := removal_of_history hu hr (Option.isSome_iff_ne_none.2 hne)
  rw [hkept c hc] at hrem
  cases hrem

/-- A removal is left alone, and without one the field stays. -/
theorem settled_of_follows (hu : ∀ q ∈ h, q.uid = u) (hf : Follows name (h.map Planned.action))
    (hr : ofHistory h = .ok r) :
    (∃ q ∈ h, q.action.isRemoval) ∧
        (∃ q, q.action.isRemoval ∧ inOrder r.settled.toList = [q]) ∨
      (∀ q ∈ h, q.action.isRemoval = false) ∧ ∀ q ∈ inOrder r.settled.toList,
        q.action.isInsertion = false ∧ q.action.isRemoval = false := by
  have tidy := tidy_of_history hu hr
  by_cases hrem : ∃ q ∈ h, q.action.isRemoval
  · obtain ⟨q, rfl⟩ := removed_of_lives hf.lives hr hrem
    obtain ⟨f, hq⟩ := tidy.removal q rfl
    refine .inl ⟨hrem, q, by rw [hq]; rfl, ?_⟩
    rw [settled_of_rename_eq_none rfl]
    rfl
  · have hkept : ∀ q ∈ h, q.action.isRemoval = false := by simpa using hrem
    refine .inr ⟨hkept, fun q hq => ?_⟩
    have hq := mem_of_mem_settled (mem_inOrder.1 hq)
    exact ⟨tidy.isInsertion_eq_false (named_of_history hf hr).1 hq,
      tidy.isRemoval_eq_false (removal_eq_none_of_history hu hkept hr) hq⟩

/-- Of an inserted field nothing is left if it is removed, and else its insertion comes first. -/
theorem settled_of_insertion {v : Uid} {j : Nat} {d : Field} (ha : p.action = .insert v j d)
    (ho : (p :: h).Pairwise fun a b => a.order < b.order) (hu : ∀ q ∈ h, q.uid = u)
    (hf : Follows name (h.map Planned.action)) (hr : ofHistory (p :: h) = .ok r) :
    (∃ q ∈ h, q.action.isRemoval) ∧ inOrder r.settled.toList = [] ∨
      (∀ q ∈ h, q.action.isRemoval = false) ∧ ∃ g m,
        inOrder r.settled.toList = { p with action := .insert v j g } :: m ∧
        ∀ q ∈ m, q.action.isInsertion = false ∧ q.action.isRemoval = false := by
  obtain ⟨s, hs, habs⟩ := ofHistory_cons.1 hr
  have tidy := tidy_of_history hu hs
  have hins := (named_of_history hf hs).1
  cases habs with
  | cancel ha' hsome =>
    refine .inl ⟨removal_of_history hu hs hsome, rfl⟩
  | @insert v' j' d' g ha' hnone hfold =>
    rw [ha] at ha'
    cases ha'
    have hkept : ∀ q ∈ h, q.action.isRemoval = false := by
      by_contra hrem
      obtain ⟨q, rfl⟩ := removed_of_lives hf.lives hs
        (by simpa only [not_forall, Bool.not_eq_false, exists_prop] using hrem)
      cases hnone
    refine .inr ⟨hkept, g, s.movement.toList, ?_, fun q hq => ?_⟩
    · have hlt := order_lt_of_history ho hs
      rw [settled_of_rename_eq_none rfl]
      exact inOrder_toList_of_insertion hnone fun m hm =>
        hlt m (mem_toList.2 (.inr (.inr (.inr (.inr hm)))))
    · have hq : q ∈ s.toList :=
        mem_toList.2 (.inr (.inr (.inr (.inr (Option.mem_toList.1 hq)))))
      exact ⟨tidy.isInsertion_eq_false hins hq, tidy.isRemoval_eq_false hnone hq⟩
  | rename ha' | merge ha' | change ha' | overwritten ha' | remove ha' | move ha' | superseded ha' =>
    rw [ha] at ha'
    cases ha'

end Record

namespace Coherent

variable {r : Reduction}

/-- What is left of the edits of a field of the table. -/
theorem ordered_of_existing (hc : Coherent t home actions) (hp : planAll actions = .ok l)
    (hr : Reduction.of l = .ok r) {i : Nat} (hu : home u = some i) :
    (∃ f, t.fields[i]? = some f) ∧
      ((∃ q ∈ editsOf u l, q.action.isRemoval) ∧
          (∃ q, q.action.isRemoval ∧ editsOf u r.ordered = [q]) ∨
        (∀ q ∈ editsOf u l, q.action.isRemoval = false) ∧ ∀ q ∈ editsOf u r.ordered,
          q.action.isInsertion = false ∧ q.action.isRemoval = false) := by
  obtain ⟨f, hf, hfollows⟩ := hc.existing u i hu
  rw [← actions_editsOf (planAll_actions hp)] at hfollows
  obtain ⟨s, hs, he⟩ := Reduction.editsOf_ordered hr u
  rw [inOrder_of_planAll hp] at hs
  rw [he]
  exact ⟨⟨f, hf⟩, Record.settled_of_follows (fun q hq => (mem_editsOf.1 hq).2) hfollows hs⟩

/-- And of those of any other field. -/
theorem ordered_of_inserted (hc : Coherent t home actions) (hp : planAll actions = .ok l)
    (hr : Reduction.of l = .ok r) (hu : home u = none) :
    editsOf u l = [] ∧ editsOf u r.ordered = [] ∨ ∃ p h j f, editsOf u l = p :: h ∧
      p.action = .insert u j f ∧ ((∃ q ∈ h, q.action.isRemoval) ∧ editsOf u r.ordered = [] ∨
        (∀ q ∈ h, q.action.isRemoval = false) ∧ ∃ g m,
          editsOf u r.ordered = { p with action := .insert u j g } :: m ∧
          ∀ q ∈ m, q.action.isInsertion = false ∧ q.action.isRemoval = false) := by
  have hl := hc.inserted u hu
  rw [← actions_editsOf (planAll_actions hp), List.map_eq_nil_iff] at hl
  have ho : (editsOf u l).Pairwise fun a b => a.order < b.order := (planAll_ascending hp).filter _
  have huid : ∀ q ∈ editsOf u l, q.uid = u := fun q hq => (mem_editsOf.1 hq).2
  obtain ⟨s, hs, he⟩ := Reduction.editsOf_ordered hr u
  rw [inOrder_of_planAll hp] at hs
  rw [he]
  rcases hl with hnil | ⟨j, f, rest, hcons, hfollows⟩
  · rw [hnil] at hs
    cases hs
    exact .inl ⟨hnil, rfl⟩
  · obtain ⟨p, h, hedits, ha, rfl⟩ := List.map_eq_cons_iff.1 hcons
    rw [hedits] at hs ho huid
    exact .inr ⟨p, h, j, f, hedits, ha, Record.settled_of_insertion ha ho
      (fun q hq => huid q (List.mem_cons_of_mem p hq)) hfollows hs⟩

theorem living_ordered (hc : Coherent t home actions) (hp : planAll actions = .ok l)
    (hr : Reduction.of l = .ok r) : Living t home r.ordered := by
  refine ⟨fun u i hu => ?_, fun u hu => ?_⟩
  · obtain ⟨hf, ⟨-, q, hrem, he⟩ | ⟨-, hstays⟩⟩ := hc.ordered_of_existing hp hr hu
    · refine ⟨hf, ?_⟩
      obtain ⟨v, name, ha⟩ := Record.isRemoval_iff.1 hrem
      rw [he]
      exact ⟨by rw [ha]; rfl, fun _ => rfl, trivial⟩
    · exact ⟨hf, lives_of_stays hstays⟩
  · rcases hc.ordered_of_inserted hp hr hu with
      ⟨-, he⟩ | ⟨p, h, j, f, -, ha, ⟨-, he⟩ | ⟨-, g, m, he, hstays⟩⟩
    · exact .inl he
    · exact .inl he
    · exact .inr ⟨_, m, j, g, he, rfl, lives_of_stays hstays⟩

/-- What is left of the edits takes away the same fields. -/
theorem gone_iff (hc : Coherent t home actions) (hp : planAll actions = .ok l)
    (hr : Reduction.of l = .ok r) (u : Uid) :
    (home u = none ∧ editsOf u l = [] ∨ ∃ q ∈ editsOf u l, q.action.isRemoval) ↔
      home u = none ∧ editsOf u r.ordered = [] ∨ ∃ q ∈ editsOf u r.ordered, q.action.isRemoval := by
  have neither : ∀ h : List Planned, (∀ q ∈ h, q.action.isRemoval = false) →
      ¬ ∃ q ∈ h, q.action.isRemoval := by
    rintro h hkept ⟨q, hq, hrem⟩
    rw [hkept q hq] at hrem
    cases hrem
  cases hu : home u with
  | some i =>
    obtain ⟨-, ⟨hrem, q, hq, he⟩ | ⟨hkept, hstays⟩⟩ := hc.ordered_of_existing hp hr hu
    · simp [hrem, he, hq]
    · simp only [reduceCtorEq, false_and, false_or, neither _ hkept,
        neither _ fun q hq => (hstays q hq).2]
  | none =>
    rcases hc.ordered_of_inserted hp hr hu with
      ⟨he, he'⟩ | ⟨p, h, j, f, he, ha, ⟨hrem, he'⟩ | ⟨hkept, g, m, he', hstays⟩⟩
    · simp [he, he']
    · simp [he, he', hrem]
    · have hl : ∀ q ∈ p :: h, q.action.isRemoval = false :=
        List.forall_mem_cons.2 ⟨by rw [ha]; rfl, hkept⟩
      have hm : ∀ q ∈ { p with action := .insert u j g } :: m, q.action.isRemoval = false :=
        List.forall_mem_cons.2 ⟨rfl, fun q hq => (hstays q hq).2⟩
      simp only [he, he', reduceCtorEq, and_false, false_or, neither _ hl, neither _ hm]

end Coherent

end TableAlteration
