import Mathlib.Data.List.InsertIdx
import Mathlib.Data.List.Nodup

namespace TableAlteration

section Lists

variable {α : Type} {l done rest : List α} {x z y : α} {s : α → Bool} {i : Nat}

theorem insertIdx_append (a b : List α) (x : α) :
    (a ++ b).insertIdx a.length x = a ++ x :: b := by
  induction a with
  | nil => simp
  | cons c a ih => simp [List.insertIdx_succ_cons, ih]

theorem insertIdx_eq (h : i ≤ l.length) (x : α) :
    l.insertIdx i x = l.take i ++ x :: l.drop i := by
  have hlen : (l.take i).length = i := List.length_take_of_le h
  have happ := insertIdx_append (l.take i) (l.drop i) x
  rwa [List.take_append_drop, hlen] at happ

theorem filter_erase_of_not [BEq α] [LawfulBEq α] (h : s x = false) :
    (l.erase x).filter s = l.filter s := by
  rw [← List.erase_filter]
  exact List.erase_of_not_mem fun hx => by simp [h] at hx

theorem filter_take_append_filter_drop (l : List α) (s : α → Bool) (j : Nat) :
    (l.take j).filter s ++ (l.drop j).filter s = l.filter s := by
  rw [← List.filter_append, List.take_append_drop]

theorem filter_insertIdx_of_not (h : s x = false) (j : Nat) :
    (l.insertIdx (min j l.length) x).filter s = l.filter s := by
  rw [insertIdx_eq (Nat.min_le_right ..), List.filter_append, List.filter_cons, h]
  simp only [Bool.false_eq_true, if_false]
  rw [filter_take_append_filter_drop]

theorem filter_insertIdx (h : s x) (j : Nat) :
    (l.insertIdx (min j l.length) x).filter s = (l.take j).filter s ++ x :: (l.drop j).filter s := by
  rw [insertIdx_eq (Nat.min_le_right ..), ← List.take_eq_take_min, ← List.drop_eq_drop_min,
    List.filter_append, List.filter_cons, if_pos h]

/-- An element is put in alike before and after filtering if nothing is left out before its place. -/
theorem insertIdx_filter {j : Nat} (h : ∀ y ∈ l.take j, s y) (x : α) :
    (l.filter s).insertIdx (min j (l.filter s).length) x =
      (l.take j).filter s ++ x :: (l.drop j).filter s := by
  have htake : (l.take j).filter s = l.take j := List.filter_eq_self.2 h
  have hsplit : l.filter s = l.take j ++ (l.drop j).filter s := by
    rw [← filter_take_append_filter_drop l s j, htake]
  have hlen : min j (l.filter s).length = (l.take j).length := by
    have hle := List.length_filter_le s (l.drop j)
    rw [List.length_drop] at hle
    rw [hsplit, List.length_append, List.length_take]
    omega
  rw [hlen, htake, hsplit]
  exact insertIdx_append ..

/-- Whether `z` stands before `y` is seen in every part of the list that has both. -/
theorem pair_sublist_filter_iff (hz : s z) (hy : s y) :
    [z, y].Sublist (l.filter s) ↔ [z, y].Sublist l := by
  constructor
  · intro h
    exact h.trans List.filter_sublist
  · intro h
    have hf := h.filter s
    simpa [hz, hy] using hf

theorem not_pair_sublist_of_prefix (hl : l.Nodup) (h : done <+: l) (hy : y ∈ done)
    (hz : z ∉ done) : ¬ [z, y].Sublist l := by
  obtain ⟨r, rfl⟩ := h
  intro hs
  obtain ⟨a, b, e, ha, hb⟩ := List.sublist_append_iff.1 hs
  cases a with
  | nil =>
    rw [List.nil_append] at e
    subst e
    have hr : y ∈ r := hb.subset (by simp)
    exact List.disjoint_of_nodup_append hl hy hr
  | cons c a =>
    obtain ⟨rfl, -⟩ := List.cons_eq_cons.1 e
    exact hz (ha.subset List.mem_cons_self)

/-- What is kept begins the list if nothing else stands before it. -/
theorem prefix_of_filter_eq (h : l.filter s = done ++ rest)
    (hb : ∀ z ∈ l, s z = false → ∀ y ∈ done, ¬ [z, y].Sublist l) : done <+: l := by
  induction l generalizing done with
  | nil =>
    obtain ⟨rfl, -⟩ := List.append_eq_nil_iff.1 h.symm
    exact List.nil_prefix
  | cons e l ih =>
    cases done with
    | nil => exact List.nil_prefix
    | cons y done =>
      rw [List.filter_cons] at h
      by_cases hs : s e
      · rw [if_pos hs, List.cons_append] at h
        obtain ⟨rfl, hrest⟩ := List.cons_eq_cons.1 h
        refine List.cons_prefix_cons.2 ⟨rfl, ih hrest fun z hz hsz y hy hsub => ?_⟩
        exact hb z (List.mem_cons_of_mem e hz) hsz y (List.mem_cons_of_mem e hy) (hsub.cons e)
      · rw [if_neg hs] at h
        have hy : y ∈ l := by
          have hf : y ∈ l.filter s := by rw [h]; exact List.mem_cons_self
          exact (List.mem_filter.1 hf).1
        have hsub : [e, y].Sublist (e :: l) := (List.singleton_sublist.2 hy).cons_cons e
        exact absurd hsub (hb e List.mem_cons_self (by simpa using hs) y List.mem_cons_self)

theorem pair_sublist_iff : [z, y].Sublist l ↔
    ∃ i j : Nat, i < j ∧ l[i]? = some z ∧ l[j]? = some y := by
  induction l with
  | nil => simp
  | cons a l ih =>
    rw [List.sublist_cons_iff, ih]
    constructor
    · intro h
      rcases h with ⟨i, j, hij, hi, hj⟩ | ⟨r, e, hr⟩
      · exact ⟨i + 1, j + 1, by omega, by simpa using hi, by simpa using hj⟩
      · obtain ⟨rfl, rfl⟩ := List.cons_eq_cons.1 e
        obtain ⟨j, hj⟩ := List.getElem?_of_mem (List.singleton_sublist.1 hr)
        exact ⟨0, j + 1, by omega, rfl, by simpa using hj⟩
    · intro h
      obtain ⟨i, j, hij, hi, hj⟩ := h
      obtain ⟨j, rfl⟩ : ∃ k, j = k + 1 := ⟨j - 1, by omega⟩
      rw [List.getElem?_cons_succ] at hj
      cases i with
      | zero =>
        right
        cases hi
        exact ⟨[y], rfl, List.singleton_sublist.2 (List.mem_of_getElem? hj)⟩
      | succ i =>
        left
        rw [List.getElem?_cons_succ] at hi
        exact ⟨i, j, by omega, hi, hj⟩

end Lists

section Marks

variable {α : Type}

def marked (l : List (α × Bool)) : List α := (l.filter (·.2)).map (·.1)

def unmarked (l : List (α × Bool)) : List α := (l.filter (!·.2)).map (·.1)

theorem mem_marked {l : List (α × Bool)} {x : α} : x ∈ marked l ↔ (x, true) ∈ l := by
  simp [marked]

theorem mem_unmarked {l : List (α × Bool)} {x : α} : x ∈ unmarked l ↔ (x, false) ∈ l := by
  simp [unmarked]

/-- Nothing that waits stood in front of an element left alone. -/
def Clear (start : List α) (done todo : List (α × Bool)) : Prop :=
  ∀ z ∈ marked todo, ∀ y ∈ unmarked done, ¬ [z, y].Sublist start

/-- Whenever an element is put in, nothing that waits stood in front of one left alone. -/
def AllClear (start : List α) (done : List (α × Bool)) : List (α × Bool) → Prop
  | [] => True
  | (x, mark) :: rest =>
    (mark → Clear start done rest) ∧ AllClear start (done ++ [(x, mark)]) rest

theorem allClear_iff {start : List α} {done todo : List (α × Bool)} :
    AllClear start done todo ↔ ∀ j x, todo[j]? = some (x, true) →
      Clear start (done ++ todo.take j) (todo.drop (j + 1)) := by
  induction todo generalizing done with
  | nil => simp [AllClear]
  | cons p rest ih =>
    obtain ⟨x, mark⟩ := p
    rw [AllClear, ih]
    constructor
    · intro h j x' hj
      obtain ⟨h0, h⟩ := h
      cases j with
      | zero =>
        rw [List.getElem?_cons_zero, Option.some.injEq, Prod.mk.injEq] at hj
        simpa using h0 hj.2
      | succ j =>
        rw [List.getElem?_cons_succ] at hj
        simpa using h j x' hj
    · intro h
      refine ⟨fun hm => ?_, fun j x' hj => ?_⟩
      · simpa using h 0 x (by simp [hm])
      · simpa using h (j + 1) x' hj

end Marks

section Placing

variable {α : Type} [DecidableEq α] {l : List α} {x : α} {s : α → Bool}

/-- Takes `x` out and puts it in at position `i`, or at the end. -/
def place (l : List α) (i : Nat) (x : α) : List α :=
  (l.erase x).insertIdx (min i (l.erase x).length) x

/-- Puts the marked elements in at their positions, counted from `i`. -/
def placeFrom (l : List α) (i : Nat) : List (α × Bool) → List α
  | [] => l
  | (x, mark) :: rest => placeFrom (if mark then place l i x else l) (i + 1) rest

/-- The other elements keep their order. -/
theorem filter_place (h : s x = false) (i : Nat) : (place l i x).filter s = l.filter s := by
  unfold place
  rw [filter_insertIdx_of_not h, filter_erase_of_not h]

theorem place_perm (h : x ∈ l) (i : Nat) : (place l i x).Perm l := by
  unfold place
  exact (List.perm_insertIdx _ _ (Nat.min_le_right ..)).trans (List.perm_cons_erase h).symm

theorem filter_placeFrom {todo : List (α × Bool)} (h : ∀ x ∈ marked todo, s x = false) (i : Nat) :
    (placeFrom l i todo).filter s = l.filter s := by
  induction todo generalizing l i with
  | nil => rfl
  | cons p rest ih =>
    obtain ⟨x, mark⟩ := p
    rw [placeFrom]
    cases mark with
    | false =>
      simp only [Bool.false_eq_true, if_false]
      exact ih h (i + 1)
    | true =>
      have hrest : ∀ y ∈ marked rest, s y = false := fun y hy =>
        h y (List.mem_cons_of_mem x hy)
      simp only [if_true]
      rw [ih hrest, filter_place (h x (by simp [marked]))]

/-- The list `l`, which was `start`, while it takes on the order of `done ++ todo`: what needs not
be put in any more is in that order, and what waits stands in front of nothing that was put in and
of what it always stood in front of. -/
structure Placing (start : List α) (done todo : List (α × Bool)) (l : List α) : Prop where
  nodup : l.Nodup
  perm : l.Perm ((done ++ todo).map (·.1))
  kept : l.filter (· ∉ marked todo) = done.map (·.1) ++ unmarked todo
  before : ∀ z ∈ marked todo, ∀ y,
    [z, y].Sublist l ↔ y ∉ marked done ∧ [z, y].Sublist start

namespace Placing

variable {start : List α} {done todo rest : List (α × Bool)}

theorem nodup_all (h : Placing start done todo l) : ((done ++ todo).map (·.1)).Nodup :=
  h.perm.nodup_iff.1 h.nodup

theorem notMem_marked (h : Placing start done todo l) {y : α} (hy : y ∈ done.map (·.1)) :
    y ∉ marked todo := by
  intro hm
  have hn := h.nodup_all
  rw [List.map_append] at hn
  exact List.disjoint_of_nodup_append hn hy (List.mem_map_of_mem (mem_marked.1 hm))

theorem notMem_head (h : Placing start done ((x, true) :: rest) l) :
    x ∉ done.map (·.1) ∧ x ∉ marked rest := by
  have hn := h.nodup_all
  rw [List.map_append, List.map_cons] at hn
  obtain ⟨-, hrest, hdisj⟩ := List.nodup_append.1 hn
  refine ⟨fun hx => hdisj x hx x List.mem_cons_self rfl, fun hx => ?_⟩
  exact (List.nodup_cons.1 hrest).1 (List.mem_map_of_mem (mem_marked.1 hx))

theorem mem_unmarked_iff (h : Placing start done todo l) {y : α} (hy : y ∈ done.map (·.1)) :
    y ∈ unmarked done ↔ y ∉ marked done := by
  have hn := h.nodup_all
  rw [List.map_append] at hn
  rw [mem_marked, mem_unmarked]
  constructor
  · intro hf ht
    have e := List.inj_on_of_nodup_map (List.nodup_append.1 hn).1 hf ht rfl
    cases e
  · intro hnm
    obtain ⟨⟨y', mark⟩, hp, rfl⟩ := List.mem_map.1 hy
    cases mark with
    | false => exact hp
    | true => exact absurd hp hnm

/-- Without the element that is put in next, the list begins with what is done. -/
theorem kept_erase (h : Placing start done ((x, true) :: rest) l) :
    (l.erase x).filter (· ∉ marked rest) = done.map (·.1) ++ unmarked rest := by
  have hk := h.kept
  have hu : unmarked ((x, true) :: rest) = unmarked rest := rfl
  rw [hu] at hk
  rw [← hk, h.nodup.erase_eq_filter, List.filter_filter]
  refine List.filter_congr fun y _ => ?_
  have hm : marked ((x, true) :: rest) = x :: marked rest := rfl
  rw [hm]
  by_cases e : y = x
  · simp [e]
  · simp [e]

theorem pair_sublist_erase_iff (h : Placing start done todo l) {z y : α} (hz : z ≠ x)
    (hy : y ≠ x) : [z, y].Sublist (l.erase x) ↔ [z, y].Sublist l := by
  rw [h.nodup.erase_eq_filter]
  exact pair_sublist_filter_iff (by simpa using hz) (by simpa using hy)

theorem prefix_iff_clear (h : Placing start done ((x, true) :: rest) l) :
    done.map (·.1) <+: l.erase x ↔ Clear start done rest := by
  obtain ⟨hxd, hxr⟩ := h.notMem_head
  have ne_of_done : ∀ y ∈ done.map (·.1), y ≠ x := fun y hy e => hxd (e ▸ hy)
  have ne_of_rest : ∀ z ∈ marked rest, z ≠ x := fun z hz e => hxr (e ▸ hz)
  have waits : ∀ z ∈ marked rest, z ∈ marked ((x, true) :: rest) := fun z hz =>
    List.mem_cons_of_mem x hz
  constructor
  · intro hp z hz y hy hs
    have hyd : y ∈ done.map (·.1) := List.mem_map_of_mem (mem_unmarked.1 hy)
    have hl : [z, y].Sublist l :=
      (h.before z (waits z hz) y).2 ⟨(h.mem_unmarked_iff hyd).1 hy, hs⟩
    have he := (h.pair_sublist_erase_iff (ne_of_rest z hz) (ne_of_done y hyd)).2 hl
    have hzd : z ∉ done.map (·.1) := fun hzd => h.notMem_marked hzd (waits z hz)
    exact not_pair_sublist_of_prefix (h.nodup.erase x) hp hyd hzd he
  · intro hc
    refine prefix_of_filter_eq h.kept_erase fun z _ hsz y hy he => ?_
    have hz : z ∈ marked rest := by simpa using hsz
    have hl := (h.pair_sublist_erase_iff (ne_of_rest z hz) (ne_of_done y hy)).1 he
    obtain ⟨hnm, hs⟩ := (h.before z (waits z hz) y).1 hl
    exact hc z hz y ((h.mem_unmarked_iff hy).2 hnm) hs

theorem filter_done (h : Placing start done ((x, true) :: rest) l) :
    (done.map (·.1)).filter (· ∉ marked rest) = done.map (·.1) := by
  refine List.filter_eq_self.2 fun y hy => ?_
  have hy := h.notMem_marked hy
  have hm : marked ((x, true) :: rest) = x :: marked rest := rfl
  rw [hm, List.mem_cons, not_or] at hy
  simpa using hy.2

theorem length_le (h : Placing start done ((x, true) :: rest) l) :
    done.length ≤ (l.erase x).length := by
  have hlen := congrArg List.length h.kept_erase
  have hle := List.length_filter_le (fun y => decide (y ∉ marked rest)) (l.erase x)
  rw [hlen, List.length_append, List.length_map] at hle
  omega

theorem place_eq (h : Placing start done ((x, true) :: rest) l) :
    place l done.length x =
      (l.erase x).take done.length ++ x :: (l.erase x).drop done.length := by
  unfold place
  rw [Nat.min_eq_left h.length_le, insertIdx_eq h.length_le]

/-- An element that is left alone is done. -/
theorem leave (h : Placing start done ((x, false) :: rest) l) :
    Placing start (done ++ [(x, false)]) rest l := by
  have hm : marked ((x, false) :: rest) = marked rest := rfl
  have hu : unmarked ((x, false) :: rest) = x :: unmarked rest := rfl
  have hd : marked (done ++ [(x, false)]) = marked done := by simp [marked]
  refine ⟨h.nodup, ?_, ?_, ?_⟩
  · simpa using h.perm
  · have hk := h.kept
    rw [hm, hu] at hk
    simpa using hk
  · have hb := h.before
    rw [hm] at hb
    rwa [hd]

/-- Nothing that waits gets in front of the element that is put in, and it stays in front of what
it stood in front of. -/
theorem before_place (h : Placing start done ((x, true) :: rest) l) {r : List α}
    (hplace : place l done.length x = done.map (·.1) ++ x :: r) (hn : (place l done.length x).Nodup)
    {z : α} (hz : z ∈ marked rest) (y : α) : [z, y].Sublist (place l done.length x) ↔
      y ∉ marked (done ++ [(x, true)]) ∧ [z, y].Sublist start := by
  have hzx : z ≠ x := fun e => h.notMem_head.2 (e ▸ hz)
  have hd : marked (done ++ [(x, true)]) = marked done ++ [x] := by simp [marked]
  rw [hd]
  by_cases e : y = x
  · subst e
    have hpre : (done ++ [(y, true)]).map (·.1) <+: place l done.length y := by
      rw [hplace]
      exact ⟨r, by simp⟩
    have hz' : z ∉ (done ++ [(y, true)]).map (·.1) := by
      intro hm
      rw [List.map_append, List.mem_append] at hm
      rcases hm with hm | hm
      · exact h.notMem_marked hm (List.mem_cons_of_mem y hz)
      · simp at hm
        exact hzx hm
    have hy : y ∈ (done ++ [(y, true)]).map (·.1) := by simp
    have hno := not_pair_sublist_of_prefix hn hpre hy hz'
    simp [hno]
  · have hs : ∀ v : α, v ≠ x → (v != x) = true := fun v hv => by simpa using hv
    have hkeep : (place l done.length x).filter (· != x) = l.filter (· != x) :=
      filter_place (by simp) done.length
    rw [← pair_sublist_filter_iff (s := fun v => v != x) (hs z hzx) (hs y e), hkeep,
      pair_sublist_filter_iff (s := fun v => v != x) (hs z hzx) (hs y e),
      h.before z (List.mem_cons_of_mem x hz) y]
    simp [e]

/-- An element that is put in behind all that is done is done. -/
theorem put (h : Placing start done ((x, true) :: rest) l) (hp : done.map (·.1) <+: l.erase x) :
    Placing start (done ++ [(x, true)]) rest (place l done.length x) := by
  obtain ⟨hxd, hxr⟩ := h.notMem_head
  obtain ⟨r, hr⟩ := hp
  have hplace : place l done.length x = done.map (·.1) ++ x :: r := by
    rw [h.place_eq, ← hr, List.take_left' (by simp), List.drop_left' (by simp)]
  have hx : x ∈ l := h.perm.mem_iff.2 (by simp)
  have hperm := place_perm hx done.length
  have hnodup := hperm.nodup_iff.2 h.nodup
  refine ⟨hnodup, ?_, ?_, fun z hz y => h.before_place hplace hnodup hz y⟩
  · simpa using hperm.trans h.perm
  · have hk := h.kept_erase
    have hdone := h.filter_done
    rw [← hr, List.filter_append, hdone] at hk
    rw [hplace, List.filter_append, hdone, List.filter_cons, if_pos (by simpa using hxr),
      List.append_cancel_left hk]
    simp

/-- Only then can the order come out right, for later elements do not make up for it. -/
theorem prefix_of_placeFrom_eq (h : Placing start done ((x, true) :: rest) l)
    (e : placeFrom (place l done.length x) (done.length + 1) rest =
      (done ++ (x, true) :: rest).map (·.1)) : done.map (·.1) <+: l.erase x := by
  obtain ⟨-, hxr⟩ := h.notMem_head
  have hlater : ∀ y ∈ marked rest, decide (y ∉ marked rest) = false := by simp
  -- what is not put in later has the same order now and in the end
  have hsame := filter_placeFrom (l := place l done.length x) hlater (done.length + 1)
  rw [e, h.place_eq, List.map_append, List.map_cons, List.filter_append, List.filter_append,
    h.filter_done, List.filter_cons, List.filter_cons, if_pos (by simpa using hxr),
    if_pos (by simpa using hxr)] at hsame
  have hout : ∀ a : List α, a.Sublist (l.erase x) → x ∉ a.filter (· ∉ marked rest) :=
    fun a ha hm => h.nodup.not_mem_erase (ha.subset (List.mem_filter.1 hm).1)
  have htake := ((List.append_cons_inj_of_notMem (hout _ (List.take_sublist ..))
    (hout _ (List.drop_sublist ..))).1 hsame.symm).1.symm
  have hlen : ((l.erase x).take done.length).length = done.length :=
    List.length_take_of_le h.length_le
  have hself : ((l.erase x).take done.length).filter (· ∉ marked rest) =
      (l.erase x).take done.length := by
    refine List.filter_eq_self.2 (List.length_filter_eq_length_iff.1 ?_)
    rw [← htake, hlen, List.length_map]
  rw [htake, hself]
  exact List.take_prefix _ _

end Placing

theorem Placing.placeFrom_eq_iff {start l : List α} {done todo : List (α × Bool)}
    (h : Placing start done todo l) :
    placeFrom l done.length todo = (done ++ todo).map (·.1) ↔ AllClear start done todo := by
  induction todo generalizing done l with
  | nil =>
    have hk := h.kept
    simp only [marked, unmarked, List.filter_nil, List.map_nil, List.not_mem_nil,
      not_false_eq_true, decide_true, List.filter_true, List.append_nil] at hk
    simp [placeFrom, AllClear, hk]
  | cons p rest ih =>
    obtain ⟨x, mark⟩ := p
    have hassoc : done ++ (x, mark) :: rest = done ++ [(x, mark)] ++ rest := by simp
    have hlen : (done ++ [(x, mark)]).length = done.length + 1 := by simp
    rw [placeFrom, AllClear]
    cases mark with
    | false =>
      have ih := ih h.leave
      rw [hlen] at ih
      rw [hassoc, ← ih]
      simp
    | true =>
      simp only [if_true, true_implies]
      constructor
      · intro e
        have hp := h.prefix_of_placeFrom_eq e
        have ih := ih (h.put hp)
        rw [hlen, ← hassoc] at ih
        exact ⟨h.prefix_iff_clear.1 hp, ih.1 e⟩
      · intro h
        obtain ⟨hc, hrest⟩ := h
        have ih := ih (h.put (h.prefix_iff_clear.2 hc))
        rw [hlen, ← hassoc] at ih
        exact ih.2 hrest

section Fixed

variable {start : List α} {l : List (α × Bool)}

theorem filter_eq_unmarked {m : List α}
    (h : List.Forall₂ (fun c p => (p.2 = true → c ∈ m) ∧ (p.2 = false → c = p.1 ∧ c ∉ m)) start l) :
    start.filter (· ∉ m) = unmarked l := by
  induction h with
  | nil => rfl
  | @cons c p cs ps hp _ ih =>
    obtain ⟨x, mark⟩ := p
    cases mark with
    | true =>
      have hu : unmarked ((x, true) :: ps) = unmarked ps := rfl
      rw [List.filter_cons, if_neg (by simpa using hp.1 rfl), ih, hu]
    | false =>
      obtain ⟨rfl, hc⟩ := hp.2 rfl
      have hu : unmarked ((c, false) :: ps) = c :: unmarked ps := rfl
      rw [List.filter_cons, if_pos (by simpa using hc), ih, hu]

/-- Every list can be brought into an order in which the elements left alone have their old
positions. -/
theorem placing_start (hn : start.Nodup) (hp : start.Perm (l.map (·.1)))
    (hfix : ∀ (k : Nat) y, l[k]? = some (y, false) → start[k]? = some y) :
    Placing start [] l start := by
  have hln := hp.nodup_iff.1 hn
  refine ⟨hn, hp, ?_, fun z _ y => by simp [marked]⟩
  refine filter_eq_unmarked (List.forall₂_iff_get.2 ⟨by simpa using hp.length_eq, ?_⟩)
  intro k hk hk'
  have hget : start[k]? = some start[k] := List.getElem?_eq_getElem hk
  have hget' : l[k]? = some l[k] := List.getElem?_eq_getElem hk'
  constructor
  · intro hm
    obtain ⟨⟨y, mark⟩, hy, e⟩ := List.mem_map.1 (hp.mem_iff.1 (List.getElem_mem hk))
    rw [mem_marked]
    cases mark with
    | true =>
      rw [List.get_eq_getElem, ← e]
      exact hy
    | false =>
      -- an element left alone is where it was, so it is not the one at a marked position
      obtain ⟨k', hk'⟩ := List.getElem?_of_mem hy
      have hsame : start[k]? = start[k']? := by
        rw [hget, hfix k' y hk', ← e]
      have hkk := (List.getElem?_inj hk hn).1 hsame
      rw [← hkk, hget'] at hk'
      have hm : l[k].2 = true := hm
      rw [Option.some.inj hk'] at hm
      cases hm
  · intro hm
    have hpair : l[k]? = some (l[k].1, false) := by
      rw [hget']
      exact congrArg some (Prod.ext rfl hm)
    have hval := hfix k _ hpair
    rw [hget] at hval
    have hval := Option.some.inj hval
    refine ⟨hval, fun hmem => ?_⟩
    rw [List.get_eq_getElem, hval, mem_marked] at hmem
    have e := List.inj_on_of_nodup_map hln hmem (List.mem_of_getElem? hpair) rfl
    cases e

/-- The order comes out right exactly if, whenever an element at `j` is put in, no marked element
of a later position `i` stood in front of one that is left alone at an earlier position `k`. -/
theorem placeFrom_eq_iff (hn : start.Nodup) (hp : start.Perm (l.map (·.1)))
    (hfix : ∀ (k : Nat) y, l[k]? = some (y, false) → start[k]? = some y) :
    placeFrom start 0 l = l.map (·.1) ↔
      ∀ (k j i : Nat) y x z (m : Nat), k < j → j < i → l[k]? = some (y, false) →
        l[j]? = some (x, true) → l[i]? = some (z, true) → start[m]? = some z → k ≤ m := by
  have hplace := (placing_start hn hp hfix).placeFrom_eq_iff
  rw [List.length_nil, List.nil_append] at hplace
  rw [hplace, allClear_iff]
  constructor
  · intro h k j i y x z m hkj hji hk hj hi hm
    by_contra hmk
    have hz : z ∈ marked (l.drop (j + 1)) := by
      rw [mem_marked]
      refine List.mem_of_getElem? (i := i - (j + 1)) ?_
      rw [List.getElem?_drop, ← hi]
      congr 1
      omega
    have hy : y ∈ unmarked ([] ++ l.take j) := by
      rw [mem_unmarked, List.nil_append]
      refine List.mem_of_getElem? (i := k) ?_
      rw [List.getElem?_take_of_lt hkj, hk]
    exact h j x hj z hz y hy (pair_sublist_iff.2 ⟨m, k, by omega, hm, hfix k y hk⟩)
  · intro h j x hj z hz y hy hs
    obtain ⟨m, k, hmk, hm, hk⟩ := pair_sublist_iff.1 hs
    rw [mem_marked] at hz
    rw [mem_unmarked, List.nil_append] at hy
    obtain ⟨i, hi⟩ := List.getElem?_of_mem hz
    obtain ⟨k', hk'⟩ := List.getElem?_of_mem hy
    rw [List.getElem?_drop] at hi
    rw [List.getElem?_take, Option.ite_none_right_eq_some] at hk'
    obtain ⟨hkj, hk'⟩ := hk'
    have hlt : k < start.length := (List.getElem?_eq_some_iff.1 hk).1
    have hkk : k = k' := (List.getElem?_inj hlt hn).1 (hk.trans (hfix k' y hk').symm)
    subst hkk
    have hle := h k j (j + 1 + i) y x z m hkj (by omega) hk' hj hi hm
    omega

end Fixed

end Placing

end TableAlteration
