import TableAlteration.Proofs.Edit.Places
import TableAlteration.Proofs.Store.Placing

namespace TableAlteration

section Lists

variable {α : Type} {l : List α} {x : α}

theorem forall_splits_cons {P : List α → α → Prop} : (∀ k y m, x :: l = k ++ y :: m → P k y) ↔
    P [] x ∧ ∀ k y m, l = k ++ y :: m → P (x :: k) y := by
  constructor
  · intro h
    refine ⟨h [] x l rfl, fun k y m e => h (x :: k) y m ?_⟩
    rw [e]
    rfl
  · intro h k y m e
    rcases List.cons_eq_append_iff.1 e with ⟨rfl, he⟩ | ⟨k', rfl, he⟩
    · obtain ⟨rfl, -⟩ := List.cons_eq_cons.1 he
      exact h.1
    · exact h.2 k' y m he

end Lists

section Arrangement

variable {t : Table} {home : Uid → Option Nat} {p : Planned} {l : List Planned}
  {s : Option Origin × Option Uid → Bool} {c : Planned → Bool}
  {a b : List (Option Origin × Option Uid)}

/-- If the edit puts one of the keys in, the same of them stand before its index in both lists. -/
def Planned.PutsAlike (t : Table) (home : Uid → Option Nat) (s : Option Origin × Option Uid → Bool)
    (p : Planned) (a b : List (Option Origin × Option Uid)) : Prop :=
  ∀ u j f, p.action = .insert u j f → s (keyOf t home p.uid) →
    (a.take j).filter s = (b.take j).filter s

namespace Planned

/-- Without moves an edit affects its own key alone. -/
theorem filter_arrange_of_not (hm : p.action.isMove = false)
    (hs : s (keyOf t home p.uid) = false) : (p.arrange t home a).filter s = a.filter s := by
  cases ha : p.action with
  | insert u j f =>
    rw [arrange_of_insert _ ha]
    exact filter_insertIdx_of_not hs j
  | remove u name =>
    rw [arrange_of_remove _ ha]
    exact filter_erase_of_not hs
  | move u name j => simp [ha, Action.isMove] at hm
  | change u name n v => rw [arrange_of_change _ ha]

/-- An edit of one of the keys has the same effect on them alone if none of the others stands before
its index. -/
theorem filter_arrange (hm : p.action.isMove = false) (hs : s (keyOf t home p.uid))
    (hput : ∀ u j f, p.action = .insert u j f → ∀ x ∈ a.take j, s x) :
    (p.arrange t home a).filter s = p.arrange t home (a.filter s) := by
  cases hp : p.action with
  | insert u j f =>
    rw [arrange_of_insert _ hp, arrange_of_insert _ hp, filter_insertIdx hs,
      insertIdx_filter (hput u j f hp)]
  | remove u name => rw [arrange_of_remove _ hp, arrange_of_remove _ hp, List.erase_filter]
  | move u name j => simp [hp, Action.isMove] at hm
  | change u name n v => rw [arrange_of_change _ hp, arrange_of_change _ hp]

theorem filter_sublist_arrange (hm : p.action.isMove = false)
    (hr : p.action.isRemoval → s (keyOf t home p.uid) = false) :
    (a.filter s).Sublist ((p.arrange t home a).filter s) := by
  cases hs : s (keyOf t home p.uid) with
  | false => rw [filter_arrange_of_not hm hs]
  | true =>
    cases ha : p.action with
    | insert u j f =>
      rw [arrange_of_insert _ ha]
      exact (List.sublist_insertIdx ..).filter s
    | remove u name =>
      have hs' := hr (by rw [ha]; rfl)
      rw [hs] at hs'
      cases hs'
    | move u name j => simp [ha, Action.isMove] at hm
    | change u name n v => rw [arrange_of_change _ ha]

theorem putsAlike_of_insert_iff {u : Uid} {j : Nat} {f : Field} (hp : p.action = .insert u j f)
    (hs : s (keyOf t home p.uid)) :
    p.PutsAlike t home s a b ↔ (a.take j).filter s = (b.take j).filter s := by
  constructor
  · intro h
    exact h u j f hp hs
  · intro h u' j' f' hp' _
    rw [hp] at hp'
    cases hp'
    exact h

/-- The keys stay alike under an edit exactly if they are alike and the edit puts its own alike. -/
theorem filter_arrange_eq_iff (hm : p.action.isMove = false)
    (hr : p.action.isRemoval → s (keyOf t home p.uid) = false)
    (ha : ((p.arrange t home a).filter s).Nodup) :
    (p.arrange t home a).filter s = (p.arrange t home b).filter s ↔
      a.filter s = b.filter s ∧ p.PutsAlike t home s a b := by
  cases hs : s (keyOf t home p.uid) with
  | false =>
    rw [filter_arrange_of_not hm hs, filter_arrange_of_not hm hs]
    simp [PutsAlike, hs]
  | true =>
    cases hp : p.action with
    | insert u j f =>
      rw [arrange_of_insert _ hp, filter_insertIdx hs] at ha ⊢
      rw [arrange_of_insert _ hp, filter_insertIdx hs, putsAlike_of_insert_iff hp hs]
      have hnotmem := (List.nodup_cons.1 (List.nodup_middle.1 ha)).1
      rw [List.mem_append, not_or] at hnotmem
      rw [List.append_cons_inj_of_notMem hnotmem.1 hnotmem.2,
        ← filter_take_append_filter_drop a s j, ← filter_take_append_filter_drop b s j]
      constructor
      · intro h
        obtain ⟨htake, -, hdrop⟩ := h
        exact ⟨by rw [htake, hdrop], htake⟩
      · intro h
        obtain ⟨hall, htake⟩ := h
        rw [htake] at hall
        exact ⟨htake, rfl, List.append_cancel_left hall⟩
    | remove u name =>
      have hs' := hr (by rw [hp]; rfl)
      rw [hs] at hs'
      cases hs'
    | move u name j => simp [hp, Action.isMove] at hm
    | change u name n v =>
      rw [arrange_of_change _ hp, arrange_of_change _ hp]
      simp [PutsAlike, hp]

end Planned

/-- Without moves the keys that are not taken out keep their order. -/
theorem filter_sublist_foldl (hm : ∀ p ∈ l, p.action.isMove = false)
    (hr : ∀ p ∈ l, p.action.isRemoval → s (keyOf t home p.uid) = false) :
    (a.filter s).Sublist ((l.foldl (Planned.arrange t home) a).filter s) := by
  induction l generalizing a with
  | nil => exact .refl _
  | cons p l ih =>
    have hstep := Planned.filter_sublist_arrange (a := a) (hm p List.mem_cons_self)
      (hr p List.mem_cons_self)
    exact hstep.trans (ih (fun q hq => hm q (List.mem_cons_of_mem p hq))
      fun q hq => hr q (List.mem_cons_of_mem p hq))

/-- The keys end alike with and without the edits left out, which affect none of them, exactly if
they begin alike and all that are put in are put alike. -/
theorem filter_foldl_eq_iff (hm : ∀ p ∈ l, p.action.isMove = false)
    (hr : ∀ p ∈ l, p.action.isRemoval → s (keyOf t home p.uid) = false)
    (hc : ∀ p ∈ l, c p = false → s (keyOf t home p.uid) = false)
    (ha : ((l.foldl (Planned.arrange t home) a).filter s).Nodup) :
    (l.foldl (Planned.arrange t home) a).filter s =
        ((l.filter c).foldl (Planned.arrange t home) b).filter s ↔
      a.filter s = b.filter s ∧ ∀ k p m, l = k ++ p :: m → p.PutsAlike t home s
        (k.foldl (Planned.arrange t home) a) ((k.filter c).foldl (Planned.arrange t home) b) := by
  induction l generalizing a b with
  | nil => simp
  | cons p l ih =>
    have hm' : ∀ q ∈ l, q.action.isMove = false := fun q hq => hm q (List.mem_cons_of_mem p hq)
    have hr' : ∀ q ∈ l, q.action.isRemoval → s (keyOf t home q.uid) = false :=
      fun q hq => hr q (List.mem_cons_of_mem p hq)
    have hfirst : ((p.arrange t home a).filter s).Nodup := ha.sublist (filter_sublist_foldl hm' hr')
    -- the first edit is taken in both lists, or it is left out and affects none of the keys
    obtain ⟨b', hfold, hstep⟩ : ∃ b', (∀ k, ((p :: k).filter c).foldl (Planned.arrange t home) b =
        (k.filter c).foldl (Planned.arrange t home) b') ∧
        ((p.arrange t home a).filter s = b'.filter s ↔
          a.filter s = b.filter s ∧ p.PutsAlike t home s a b) := by
      cases hcp : c p with
      | true =>
        refine ⟨p.arrange t home b, fun k => by rw [List.filter_cons, if_pos hcp]; rfl, ?_⟩
        exact Planned.filter_arrange_eq_iff (hm p List.mem_cons_self) (hr p List.mem_cons_self)
          hfirst
      | false =>
        have hs := hc p List.mem_cons_self hcp
        refine ⟨b, fun k => by rw [List.filter_cons, hcp]; rfl, ?_⟩
        rw [Planned.filter_arrange_of_not (hm p List.mem_cons_self) hs]
        simp [Planned.PutsAlike, hs]
    have hsplits := forall_splits_cons (x := p) (l := l) (P := fun k q => q.PutsAlike t home s
      (k.foldl (Planned.arrange t home) a) ((k.filter c).foldl (Planned.arrange t home) b))
    rw [hfold, hsplits, List.foldl_cons, ih hm' hr' (fun q hq => hc q (List.mem_cons_of_mem p hq)) ha,
      hstep, and_assoc]
    simp only [hfold, List.foldl_cons, List.filter_nil, List.foldl_nil]

/-- Without the edits left out the other keys stand as with them, if none is put in behind a key of
an edit left out. -/
theorem filter_foldl_eq (hm : ∀ p ∈ l, p.action.isMove = false)
    (hs : ∀ p ∈ l, s (keyOf t home p.uid) = c p)
    (hput : ∀ k p m, l = k ++ p :: m → ∀ u j f, p.action = .insert u j f → c p →
      ∀ x ∈ (k.foldl (Planned.arrange t home) a).take j, s x) :
    (l.foldl (Planned.arrange t home) a).filter s =
      (l.filter c).foldl (Planned.arrange t home) (a.filter s) := by
  induction l generalizing a with
  | nil => rfl
  | cons p l ih =>
    have hsp := hs p List.mem_cons_self
    have hrest : (l.foldl (Planned.arrange t home) (p.arrange t home a)).filter s =
        (l.filter c).foldl (Planned.arrange t home) ((p.arrange t home a).filter s) := by
      refine ih (fun q hq => hm q (List.mem_cons_of_mem p hq))
        (fun q hq => hs q (List.mem_cons_of_mem p hq)) fun k q m e => ?_
      exact hput (p :: k) q m (by rw [e]; rfl)
    rw [List.foldl_cons, hrest, List.filter_cons]
    cases hcp : c p with
    | false =>
      rw [hcp] at hsp
      rw [Planned.filter_arrange_of_not (hm p List.mem_cons_self) hsp]
      rfl
    | true =>
      rw [hcp] at hsp
      have hfirst : (p.arrange t home a).filter s = p.arrange t home (a.filter s) :=
        Planned.filter_arrange (hm p List.mem_cons_self) hsp fun u j f hp =>
          hput [] p l rfl u j f hp hcp
      rw [hfirst]
      rfl

end Arrangement

section Keys

variable {t : Table} {home : Uid → Option Nat} {k l l' : List Planned} {u : Uid}
  {rows rows' : List Row} {d : Draft}

theorem keyOf_injective (hd : ∀ u v i, home u = some i → home v = some i → u = v) :
    Function.Injective (keyOf t home) := by
  intro u v e
  obtain ⟨ho, hu⟩ := Prod.mk.inj e
  cases hou : originOf t home u with
  | none =>
    rw [hou] at ho hu
    rw [← ho] at hu
    exact Option.some.inj hu
  | some o => exact hd u v _ (originOf_eq_some hou) (originOf_eq_some (ho.symm.trans hou))

namespace Tracks

/-- A field that is there in the end is told by its key. -/
theorem keyOf_mem_iff (hd : ∀ u v i, home u = some i → home v = some i → u = v)
    (h : Tracks t home l rows) :
    keyOf t home u ∈ rows.map Row.key ↔ ∃ f, fate t home l u = .ok (some f) := by
  constructor
  · intro hmem
    obtain ⟨r, hr, e⟩ := List.mem_map.1 hmem
    cases (h.mem r).1 hr with
    | @edited v f hne hf =>
      obtain rfl : v = u := keyOf_injective hd e
      exact ⟨f, hf⟩
    | @untouched i f hi he =>
      have ho : some ⟨f.name, i⟩ = originOf t home u := congrArg Prod.fst e
      have hu := originOf_eq_some ho.symm
      refine ⟨f, ?_⟩
      rw [fate_of_no_edits (he u hu)]
      simp [start, hu, hi]
  · intro hf
    obtain ⟨f, hf⟩ := hf
    refine List.mem_map.2 ⟨_, h.mem_rowOf hd hf, ?_⟩
    rw [key_rowOf hf]
    rfl

theorem key_subset (hd : ∀ u v i, home u = some i → home v = some i → u = v)
    (h : Tracks t home l rows) (h' : Tracks t home l' rows')
    (he : ∀ u s s', fate t home l u = .ok s → fate t home l' u = .ok s' → (s = none ↔ s' = none))
    {x : Option Origin × Option Uid} (hx : x ∈ rows.map Row.key) : x ∈ rows'.map Row.key := by
  refine h.map_subset h' (fun _ _ _ => rfl) (fun u f hf => ?_) hx
  obtain ⟨s', hs'⟩ := h'.fates u
  cases s' with
  | none => cases (he u _ _ hf hs').2 rfl
  | some g => exact (h'.keyOf_mem_iff hd).2 ⟨g, hs'⟩

/-- If the same fields are there in the end, they have the same keys. -/
theorem key_perm (hd : ∀ u v i, home u = some i → home v = some i → u = v)
    (h : Tracks t home l rows) (h' : Tracks t home l' rows')
    (he : ∀ u s s', fate t home l u = .ok s → fate t home l' u = .ok s' → (s = none ↔ s' = none)) :
    (rows.map Row.key).Perm (rows'.map Row.key) := by
  refine (List.perm_ext_iff_of_nodup (h.key_nodup hd) (h'.key_nodup hd)).2 fun x => ?_
  refine ⟨h.key_subset hd h' he, h'.key_subset hd h fun u s s' hs hs' => ?_⟩
  exact (he u s' s hs' hs).symm

end Tracks

theorem Addressed.before (ha : Addressed t home (k ++ l)) : Addressed t home k := by
  refine ⟨ha.distinct, fun u i p h hu he => ?_, fun p hp => ?_⟩
  · refine ha.named u i p (h ++ editsOf u l) hu ?_
    rw [editsOf_append, he]
    rfl
  · exact ha.inserted p (List.mem_append_left l hp)

/-- A run can be stopped at every edit, and then the edits so far tell the order of the rows. -/
theorem Tracks.keys_before (hn : t.NamesDistinct) (ha : Addressed t home (k ++ l))
    (h : Tracks t home (k ++ l) d.rows) (hd : (Draft.of t).applyAll (k ++ l) = .ok d) :
    ∃ e, (Draft.of t).applyAll k = .ok e ∧
      e.rows.map Row.key = (placings k).foldl (Planned.arrange t home)
        ((Draft.of t).rows.map Row.key) := by
  obtain ⟨e, he, -⟩ := foldlM_append_eq_ok.1 hd
  have hfates : ∀ u, ∃ s, fate t home k u = .ok s := by
    intro u
    obtain ⟨s, hs⟩ := h.fates u
    exact fate_before hs
  exact ⟨e, he, Draft.keys_of_applyAll hn ha.before hfates he⟩

end Keys

end TableAlteration
