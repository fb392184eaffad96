import Mathlib.Data.List.Perm.Subperm
import TableAlteration.Proofs.Edit.Idempotence
import TableAlteration.Proofs.Edit.InPlace

namespace TableAlteration

/-- The second edit is the first one, but for its field name or the definition it inserts. -/
inductive Action.Rewritten : Action → Action → Prop where
  | change (u : Uid) (f g property : String) (v : Value) :
      Rewritten (.change u f property v) (.change u g property v)
  | remove (u : Uid) (f g : String) : Rewritten (.remove u f) (.remove u g)
  | insert (u : Uid) (i : Nat) (f g : Field) : Rewritten (.insert u i f) (.insert u i g)
  | move (u : Uid) (f g : String) (i : Nat) : Rewritten (.move u f i) (.move u g i)

theorem Action.rewritten_of_bare {a b : Action} (h : a.bare = b.bare) : a.Rewritten b := by
  cases a <;> cases b <;> cases h <;> constructor

theorem subperm_map {α β : Type} (f : α → β) {k l : List α} (h : k.Subperm l) :
    (k.map f).Subperm (l.map f) := by
  obtain ⟨m, hperm, hsub⟩ := h
  exact ⟨m.map f, hperm.map f, hsub.map f⟩

/-- If no field has more edits in one list than in another, the list has none that the other
lacks. -/
theorem subperm_of_editsOf {k l : List Planned}
    (h : ∀ u, ((editsOf u k).map Planned.bare).Subperm ((editsOf u l).map Planned.bare)) :
    (k.map Planned.bare).Subperm (l.map Planned.bare) := by
  have hcount : ∀ (l : List Planned) (b : Planned),
      (l.map Planned.bare).count b = ((editsOf b.uid l).map Planned.bare).count b := by
    intro l b
    have huid : ∀ p : Planned, p.bare.uid = p.uid := fun p => Action.uid_bare p.action
    have hfilter : (editsOf b.uid l).map Planned.bare = editsOf b.uid (l.map Planned.bare) := by
      simp only [editsOf, List.filter_map, Function.comp_def, huid]
    rw [hfilter, editsOf, List.count_filter (by simp)]
  refine List.subperm_ext_iff.2 fun b _ => ?_
  rw [hcount k, hcount l]
  exact (h b.uid).count_le b

namespace Record

variable {r s : Record} {p : Planned} {h : List Planned}

theorem map_bare_toList_withFieldName (r : Record) (name : String) :
    (r.withFieldName name).toList.map Planned.bare = r.toList.map Planned.bare := by
  have hslot : ∀ o : Option Planned,
      (o.map (Planned.withFieldName name)).toList.map Planned.bare =
        o.toList.map Planned.bare := by
    intro o
    cases o <;> simp
  have hvalues : (r.withFieldName name).properties.values.map Planned.bare =
      r.properties.values.map Planned.bare := by
    rw [values_withFieldName, List.map_map]
    exact List.map_congr_left fun p _ => p.bare_withFieldName name
  unfold toList
  simp only [List.map_append, hvalues]
  simp only [withFieldName, hslot]

theorem Adds.perm (h : Adds p s r) : r.toList.Perm (p :: s.toList) := by
  obtain ⟨before, after, hs, hr⟩ := h
  rw [hs, hr]
  exact List.perm_middle

/-- Taking an edit in brings in no more than that edit. -/
theorem Absorbs.bare_subperm (ha : Absorbs p s r) :
    (r.toList.map Planned.bare).Subperm (p.bare :: s.toList.map Planned.bare) := by
  have hadds : ∀ {r : Record}, Adds p s r →
      (r.toList.map Planned.bare).Subperm (p.bare :: s.toList.map Planned.bare) := by
    intro r h
    exact (h.perm.map Planned.bare).subperm
  have hrest : (s.toList.map Planned.bare).Subperm (p.bare :: s.toList.map Planned.bare) :=
    (List.sublist_cons_self _ _).subperm
  cases ha with
  | rename ha hn h1 h2 =>
    rw [map_bare_toList_withFieldName]
    exact hadds (adds_rename h1)
  | merge ha hn h1 =>
    rw [map_bare_toList_withFieldName]
    exact hrest
  | change ha hn h1 h2 => exact hadds (adds_property h2)
  | overwritten | superseded => exact hrest
  | move ha h1 h2 => exact hadds (adds_movement h2)
  | cancel => exact List.nil_subperm
  | remove ha =>
    -- of two removals the earlier one stays
    have hbeside : { s with removal := some p }.toList = p :: { s with removal := none }.toList :=
      rfl
    have hkept : { s with removal := none }.toList.Sublist s.toList := by
      unfold toList
      simp only [List.append_assoc]
      exact List.sublist_append_right _ _
    rw [hbeside, List.map_cons]
    exact ((hkept.map Planned.bare).cons_cons _).subperm
  | @insert u i d g ha h1 h2 =>
    have hbare : Planned.bare { p with action := .insert u i g } = p.bare := by
      simp only [Planned.bare, ha, Action.bare]
    have hlist : toList { s with
        insertion := some { p with action := .insert u i g }, rename := none, properties := ∅ } =
        { p with action := .insert u i g } :: s.movement.toList := by
      rw [toList, h1]
      rfl
    have hkept : s.movement.toList.Sublist s.toList := List.sublist_append_right _ _
    rw [hlist, List.map_cons, hbare]
    exact ((hkept.map Planned.bare).cons_cons _).subperm

theorem bare_subperm_of_history (hr : ofHistory h = .ok r) :
    (r.toList.map Planned.bare).Subperm (h.map Planned.bare) := by
  induction h generalizing r with
  | nil =>
    cases hr
    exact List.nil_subperm
  | cons p h ih =>
    obtain ⟨s, hs, ha⟩ := ofHistory_cons.1 hr
    exact ha.bare_subperm.trans ((List.subperm_cons p.bare).2 (ih hs))

theorem toList_settled_sublist (r : Record) : r.settled.toList.Sublist r.toList := by
  unfold settled
  split
  · have hslot : (none : Option Planned).toList.Sublist r.rename.toList := List.nil_sublist _
    exact (((List.Sublist.refl _).append hslot).append (.refl _)).append (.refl _)
  · exact .refl _

end Record

namespace Reduction

variable {actions : List Action} {l : List Planned} {r : Reduction}

theorem bare_subperm (hr : Reduction.of l = .ok r) :
    (r.ordered.map Planned.bare).Subperm (l.map Planned.bare) := by
  have hsorted : (r.ordered.map Planned.bare).Subperm ((inOrder l).map Planned.bare) := by
    refine subperm_of_editsOf fun u => ?_
    obtain ⟨s, hs, hordered⟩ := editsOf_ordered hr u
    rw [hordered]
    have hkept : (inOrder s.settled.toList).Subperm s.toList :=
      (inOrder_perm _).subperm.trans s.toList_settled_sublist.subperm
    exact (subperm_map Planned.bare hkept).trans (Record.bare_subperm_of_history hs)
  exact hsorted.trans ((inOrder_perm l).map Planned.bare).subperm

theorem length_ordered (r : Reduction) : r.ordered.length = r.size := by
  unfold ordered toList size
  rw [(inOrder_perm _).length_eq, List.length_flatMap]
  rfl

/-- No place is taken twice. -/
theorem ordered_ascending (hp : planAll actions = .ok l) (hr : Reduction.of l = .ok r) :
    r.ordered.Pairwise fun p q => p.order < q.order := by
  have horders : ∀ l : List Planned, (l.map Planned.bare).map Planned.order =
      l.map Planned.order := by
    intro l
    rw [List.map_map]
    rfl
  have hnodup : (l.map Planned.order).Nodup :=
    List.pairwise_map.2 ((planAll_ascending hp).imp Nat.ne_of_lt)
  have hsub := subperm_map Planned.order (bare_subperm hr)
  rw [horders, horders] at hsub
  have hdistinct : r.ordered.Pairwise fun p q => p.order ≠ q.order := by
    obtain ⟨m, hperm, hsublist⟩ := hsub
    exact List.pairwise_map.1 (hperm.nodup (hnodup.sublist hsublist))
  have hsorted : r.ordered.Pairwise Planned.NotAfter := inOrder_pairwise r.toList
  exact (hsorted.and hdistinct).imp fun h => Nat.lt_of_le_of_ne h.1 h.2

/-- What remains are submitted edits, each at most once and in the order of submission. Each has the
place of one, needs what that one needs, and differs from it at most in the name of its field or in
the definition it inserts; what it needs is still what an edit of its kind needs. -/
theorem survivors_submitted (hp : planAll actions = .ok l) (hr : Reduction.of l = .ok r) :
    r.ordered.Pairwise (fun p q => p.order < q.order) ∧ r.ordered.length = r.size ∧
      ∀ q ∈ r.ordered,
        (∃ p ∈ l, p.order = q.order ∧ p.requirements = q.requirements ∧
          p.action.Rewritten q.action) ∧
        q.action.requirements = .ok q.requirements := by
  refine ⟨ordered_ascending hp hr, r.length_ordered, fun q hq => ⟨?_, ?_⟩⟩
  · obtain ⟨p, hpl, hbare⟩ := bare_of_mem_ordered hr hq
    have hreq : q.bare.requirements = p.bare.requirements := by rw [hbare]
    have hact : p.action.bare = q.action.bare := congrArg Planned.action hbare.symm
    exact ⟨p, hpl, (Planned.order_of_bare hbare).symm, hreq.symm,
      Action.rewritten_of_bare hact⟩
  · exact requirements_of_mem hp hr q hq

/-- A field that is inserted and then changed, one that is renamed twice and moved, and one that is
inserted and removed again. -/
def threeFates : List Action :=
  [.insert ⟨0⟩ 0 { name := "a", type := .text }, .rename ⟨1⟩ "x" "y",
    .change ⟨0⟩ "a" "caption" (.text "A"), .insert ⟨2⟩ 1 { name := "b", type := .date },
    .rename ⟨1⟩ "y" "z", .remove ⟨2⟩ "b", .move ⟨1⟩ "z" 0]

/-- The insertion has taken the caption in, and the second rename starts from the first name. -/
theorem survivors_submitted_of_three_fates :
    ∃ l r, planAll threeFates = .ok l ∧ Reduction.of l = .ok r ∧
      r.ordered.map (fun q => (q.order, q.action)) =
        [(0, .insert ⟨0⟩ 0 { name := "a", type := .text, caption := some "A" }),
          (4, .rename ⟨1⟩ "x" "z"), (6, .move ⟨1⟩ "x" 0)] ∧
      r.size = 3 ∧
      ∀ q ∈ r.ordered, ∃ p ∈ l, p.order = q.order ∧ p.action.Rewritten q.action := by
  refine ⟨_, _, rfl, rfl, by decide +kernel, by decide +kernel, fun q hq => ?_⟩
  obtain ⟨-, -, hall⟩ := @survivors_submitted threeFates _ _ rfl rfl
  obtain ⟨⟨p, hp, horder, -, hrewritten⟩, -⟩ := hall q hq
  exact ⟨p, hp, horder, hrewritten⟩

end Reduction

end TableAlteration
