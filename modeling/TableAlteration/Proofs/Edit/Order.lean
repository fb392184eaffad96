import Mathlib.Data.List.Sort
import TableAlteration.Edit.Action

namespace TableAlteration

/-- Edits with equal places may stand in either sequence. -/
def Planned.NotAfter (p q : Planned) : Prop := p.order ≤ q.order

instance (p q : Planned) : Decidable (p.NotAfter q) := inferInstanceAs (Decidable (_ ≤ _))

instance : IsTrans Planned Planned.NotAfter := ⟨fun _ _ _ h k => Nat.le_trans h k⟩

instance : Std.Total Planned.NotAfter := ⟨fun p q => Nat.le_total p.order q.order⟩

theorem insertInOrder_eq (p : Planned) (l : List Planned) :
    insertInOrder p l = l.orderedInsert Planned.NotAfter p := by
  induction l with
  | nil => rfl
  | cons q rest ih =>
    rw [insertInOrder, List.orderedInsert_cons, ih]
    rfl

theorem inOrder_eq (l : List Planned) : inOrder l = l.insertionSort Planned.NotAfter := by
  induction l with
  | nil => rfl
  | cons p rest ih => rw [inOrder, ih, insertInOrder_eq, List.insertionSort_cons]

theorem inOrder_perm (l : List Planned) : (inOrder l).Perm l := by
  rw [inOrder_eq]
  exact List.perm_insertionSort _ l

@[simp] theorem mem_inOrder {p : Planned} {l : List Planned} : p ∈ inOrder l ↔ p ∈ l :=
  (inOrder_perm l).mem_iff

theorem inOrder_pairwise (l : List Planned) : (inOrder l).Pairwise Planned.NotAfter := by
  rw [inOrder_eq]
  exact List.pairwise_insertionSort _ l

theorem inOrder_eq_self {l : List Planned} (h : l.Pairwise Planned.NotAfter) : inOrder l = l := by
  rw [inOrder_eq]
  exact List.Pairwise.insertionSort_eq h

theorem inOrder_cons {p : Planned} {l : List Planned} (h : ∀ q ∈ l, p.NotAfter q) :
    inOrder (p :: l) = p :: inOrder l := by
  rw [inOrder_eq, inOrder_eq]
  exact List.insertionSort_cons_of_forall_rel _ h

/-- An edit before all others comes first, wherever it stands in the list. -/
theorem inOrder_middle {p : Planned} {k l : List Planned} (h : ∀ q ∈ k ++ l, p.order < q.order) :
    inOrder (k ++ p :: l) = p :: inOrder (k ++ l) := by
  induction k with
  | nil => exact inOrder_cons fun q hq => Nat.le_of_lt (h q hq)
  | cons a k ih =>
    have ha : p.order < a.order := h a (by simp)
    have hk := ih fun q hq => h q (List.mem_cons_of_mem a hq)
    rw [List.cons_append, inOrder, hk, insertInOrder, if_neg (Nat.not_le.2 ha)]
    rfl

theorem inOrder_map {f : Planned → Planned} (h : ∀ p, (f p).order = p.order) (l : List Planned) :
    inOrder (l.map f) = (inOrder l).map f := by
  rw [inOrder_eq, inOrder_eq]
  refine (List.map_insertionSort _ _ f l ?_).symm
  intro p _ q _
  simp only [Planned.NotAfter, h]

/-- In the order of their places the same edits are the same list. -/
theorem eq_of_perm_of_ascending {k l : List Planned} (h : k.Perm l)
    (hk : k.Pairwise Planned.NotAfter) (hl : l.Pairwise fun p q => p.order < q.order) : k = l := by
  have horders : (l.map Planned.order).Nodup := List.pairwise_map.2 (hl.imp Nat.ne_of_lt)
  refine h.eq_of_pairwise ?_ hk (hl.imp Nat.le_of_lt)
  intro p q hp hq hpq hqp
  exact List.inj_on_of_nodup_map horders (h.mem_iff.1 hp) hq (Nat.le_antisymm hpq hqp)

theorem insertInOrder_of_forall {p : Planned} {l : List Planned} (h : ∀ q ∈ l, p.NotAfter q) :
    insertInOrder p l = p :: l := by
  cases l with
  | nil => rfl
  | cons q rest =>
    have hq : p.order ≤ q.order := h q List.mem_cons_self
    rw [insertInOrder, if_pos hq]

private theorem filter_insertInOrder (s : Planned → Bool) (p : Planned) {l : List Planned}
    (h : l.Pairwise Planned.NotAfter) :
    (insertInOrder p l).filter s =
      if s p then insertInOrder p (l.filter s) else l.filter s := by
  induction l with
  | nil => cases hp : s p <;> simp [insertInOrder, hp]
  | cons q rest ih =>
    rw [List.pairwise_cons] at h
    rw [insertInOrder]
    split
    · rename_i hpq
      -- all that is kept behind `q` is not before `p` either
      have hall : ∀ r ∈ (q :: rest).filter s, p.NotAfter r := by
        intro r hr
        rcases List.mem_cons.1 (List.mem_filter.1 hr).1 with rfl | hr'
        · exact hpq
        · exact Nat.le_trans hpq (h.1 r hr')
      rw [List.filter_cons]
      split
      · rw [insertInOrder_of_forall hall]
      · rfl
    · rename_i hpq
      rw [List.filter_cons, ih h.2, List.filter_cons]
      cases hq : s q <;> cases hp : s p <;> simp [insertInOrder, hpq]

theorem filter_inOrder (s : Planned → Bool) (l : List Planned) :
    (inOrder l).filter s = inOrder (l.filter s) := by
  induction l with
  | nil => rfl
  | cons p rest ih =>
    rw [inOrder, filter_insertInOrder s p (inOrder_pairwise rest), ih, List.filter_cons]
    split <;> rfl

end TableAlteration
