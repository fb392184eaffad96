import TableAlteration.Proofs.Edit.Order
import TableAlteration.Proofs.Failure

namespace TableAlteration

theorem Planned.of_eq_ok {n : Nat} {a : Action} {p : Planned} (h : Planned.of n a = .ok p) :
    p.order = n ∧ p.action = a ∧ a.requirements = .ok p.requirements := by
  unfold of at h
  split at h
  · rename_i r hr
    cases h
    exact ⟨rfl, rfl, hr⟩
  · cases h

section Plans

variable {n : Nat} {actions : List Action} {l : List Planned}

theorem planFrom_actions (h : planFrom n actions = .ok l) : l.map Planned.action = actions := by
  induction actions generalizing n l with
  | nil =>
    cases h
    rfl
  | cons a rest ih =>
    obtain ⟨p, hp, h⟩ := bind_eq_ok.1 h
    obtain ⟨ps, hps, h⟩ := bind_eq_ok.1 h
    cases h
    rw [List.map_cons, ih hps, (Planned.of_eq_ok hp).2.1]

theorem planFrom_requirements (h : planFrom n actions = .ok l) :
    ∀ p ∈ l, p.action.requirements = .ok p.requirements := by
  induction actions generalizing n l with
  | nil =>
    cases h
    simp
  | cons a rest ih =>
    obtain ⟨p, hp, h⟩ := bind_eq_ok.1 h
    obtain ⟨ps, hps, h⟩ := bind_eq_ok.1 h
    cases h
    intro q hq
    rcases List.mem_cons.1 hq with rfl | hq
    · obtain ⟨-, ha, hr⟩ := Planned.of_eq_ok hp
      rw [ha, hr]
    · exact ih hps q hq

/-- Edits of properties that are known can be planned. -/
theorem planFrom_ok (h : ∀ a ∈ actions, ∃ r, a.requirements = .ok r) (n : Nat) :
    ∃ l, planFrom n actions = .ok l := by
  induction actions generalizing n with
  | nil => exact ⟨[], rfl⟩
  | cons a rest ih =>
    obtain ⟨r, hr⟩ := h a List.mem_cons_self
    obtain ⟨l, hl⟩ := ih (fun b hb => h b (List.mem_cons_of_mem a hb)) (n + 1)
    have ha : Planned.of n a = .ok ⟨n, r, a⟩ := by rw [Planned.of, hr]
    exact ⟨⟨n, r, a⟩ :: l, bind_eq_ok.2 ⟨_, ha, bind_eq_ok.2 ⟨l, hl, rfl⟩⟩⟩

theorem planFrom_orders (h : planFrom n actions = .ok l) :
    (∀ p ∈ l, n ≤ p.order) ∧ l.Pairwise fun p q => p.order < q.order := by
  induction actions generalizing n l with
  | nil =>
    cases h
    exact ⟨by simp, .nil⟩
  | cons a rest ih =>
    obtain ⟨p, hp, h⟩ := bind_eq_ok.1 h
    obtain ⟨ps, hps, h⟩ := bind_eq_ok.1 h
    cases h
    obtain ⟨hle, hlt⟩ := ih hps
    have hn : p.order = n := (Planned.of_eq_ok hp).1
    constructor
    · intro q hq
      rcases List.mem_cons.1 hq with rfl | hq
      · omega
      · have := hle q hq
        omega
    · refine List.pairwise_cons.2 ⟨fun q hq => ?_, hlt⟩
      have := hle q hq
      omega

theorem planAll_actions (h : planAll actions = .ok l) : l.map Planned.action = actions :=
  planFrom_actions h

theorem planAll_ascending (h : planAll actions = .ok l) :
    l.Pairwise fun p q => p.order < q.order := (planFrom_orders h).2

/-- A plan is in order. -/
theorem inOrder_of_planAll (h : planAll actions = .ok l) : inOrder l = l :=
  inOrder_eq_self ((planAll_ascending h).imp fun h => Nat.le_of_lt h)

end Plans

end TableAlteration
