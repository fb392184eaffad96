import Mathlib.Data.List.InsertIdx
import TableAlteration.Proofs.Edit.History
import TableAlteration.Proofs.Edit.Runs

namespace TableAlteration

theorem map_moveWithin {α β : Type} (f : α → β) (l : List α) (i j : Nat) :
    (moveWithin l i j).map f = moveWithin (l.map f) i j := by
  unfold moveWithin
  rw [List.getElem?_map]
  cases l[i]? with
  | none => rfl
  | some x =>
    have hlen : ((l.map f).eraseIdx i).length = (l.eraseIdx i).length := by
      rw [List.eraseIdx_map, List.length_map]
    simp only [Option.map_some]
    rw [List.map_insertIdx, ← List.eraseIdx_map, hlen]

/-- Lists with the same elements are equal if they agree in what tells the elements apart. -/
theorem eq_of_perm_of_map_eq {α β : Type} {f : α → β} {a b : List α} (h : a.Perm b)
    (hf : ∀ x ∈ a, ∀ y ∈ a, f x = f y → x = y) (e : a.map f = b.map f) : a = b := by
  refine List.ext_getElem h.length_eq fun i hi hi' => ?_
  have hb : b[i] ∈ a := h.mem_iff.2 (List.getElem_mem hi')
  refine hf _ (List.getElem_mem hi) _ hb ?_
  have he : (a.map f)[i]? = (b.map f)[i]? := by rw [e]
  simpa [hi, hi'] using he

namespace Action

def isMove : Action → Bool
  | .move .. => true
  | _ => false

/-- Whether the edit affects the order of the fields. -/
def places : Action → Bool
  | .change .. => false
  | _ => true

theorem isMove_bare (a : Action) : a.bare.isMove = a.isMove := by cases a <;> rfl

theorem isRemoval_bare (a : Action) : a.bare.isRemoval = a.isRemoval := by cases a <;> rfl

end Action

section Arrangement

variable (t : Table) (home : Uid → Option Nat)

/-- The key of a field's row. -/
def keyOf (u : Uid) : Option Origin × Option Uid :=
  (originOf t home u, if originOf t home u = none then some u else none)

/-- Where an edit leaves the rows, each told by its key. -/
def Planned.arrange (keys : List (Option Origin × Option Uid)) (p : Planned) :
    List (Option Origin × Option Uid) :=
  match p.action with
  | .insert u j _ => keys.insertIdx (min j keys.length) (keyOf t home u)
  | .remove u _ => keys.erase (keyOf t home u)
  | .move u _ j => moveWithin keys (keys.idxOf (keyOf t home u)) j
  | .change .. => keys

/-- The edits that affect the order, without what does not matter for it. -/
def placings (l : List Planned) : List Planned :=
  (l.filter fun p => p.action.places).map Planned.bare

variable {t home} {k l : List Planned} {p : Planned} {u : Uid} {d d' : Draft}

namespace Planned

variable (keys : List (Option Origin × Option Uid))

theorem arrange_of_insert {j : Nat} {f : Field} (ha : p.action = .insert u j f) :
    p.arrange t home keys = keys.insertIdx (min j keys.length) (keyOf t home p.uid) := by
  rw [arrange, Planned.uid, ha]
  rfl

theorem arrange_of_remove {name : String} (ha : p.action = .remove u name) :
    p.arrange t home keys = keys.erase (keyOf t home p.uid) := by
  rw [arrange, Planned.uid, ha]
  rfl

theorem arrange_of_move {name : String} {j : Nat} (ha : p.action = .move u name j) :
    p.arrange t home keys = moveWithin keys (keys.idxOf (keyOf t home p.uid)) j := by
  rw [arrange, Planned.uid, ha]
  rfl

theorem arrange_of_change {name n : String} {v : Value} (ha : p.action = .change u name n v) :
    p.arrange t home keys = keys := by
  rw [arrange, ha]

theorem arrange_bare : p.bare.arrange t home keys = p.arrange t home keys := by
  unfold arrange bare
  cases p.action <;> rfl

end Planned

theorem placings_cons_of_places (h : p.action.places = true) (l : List Planned) :
    placings (p :: l) = p.bare :: placings l := by
  rw [placings, List.filter_cons, if_pos h, List.map_cons]
  rfl

theorem placings_cons_of_not_places (h : p.action.places = false) (l : List Planned) :
    placings (p :: l) = placings l := by
  rw [placings, List.filter_cons, h]
  rfl

theorem foldl_placings (keys : List (Option Origin × Option Uid)) :
    (placings l).foldl (Planned.arrange t home) keys = l.foldl (Planned.arrange t home) keys := by
  induction l generalizing keys with
  | nil => rfl
  | cons p l ih =>
    rw [List.foldl_cons]
    cases ha : p.action with
    | change u name n v =>
      have hno : p.action.places = false := by rw [ha]; rfl
      rw [placings_cons_of_not_places hno, ih, Planned.arrange_of_change keys ha]
    | _ =>
      have hplaces : p.action.places = true := by rw [ha]; rfl
      rw [placings_cons_of_places hplaces, List.foldl_cons, ih, Planned.arrange_bare]

theorem rowOf_snoc_key (k : List Planned) (p : Planned) (f : Field) :
    (rowOf t home (k ++ [p]) p.uid f).key = keyOf t home p.uid := by
  rw [rowOf_snoc]
  rfl

/-- An edit of a row that is there changes no key, and takes out or moves the row's own. -/
theorem Draft.keys_apply_of_resolve {i : Nat} {r : Row} (hins : p.action.isInsertion = false)
    (hres : d.resolve p.uid p.action.fieldName = .ok (i, r)) (hr : r.key = keyOf t home p.uid)
    (hget : (d.rows.map Row.key)[i]? = some (keyOf t home p.uid))
    (hidx : (d.rows.map Row.key).idxOf (keyOf t home p.uid) = i) (hd : d.apply p = .ok d') :
    d'.rows.map Row.key = p.arrange t home (d.rows.map Row.key) := by
  obtain ⟨hlt, e⟩ := List.getElem?_eq_some_iff.1 hget
  have hset : ∀ q : Row, q.key = r.key → (d.rows.set i q).map Row.key = d.rows.map Row.key := by
    intro q hq
    rw [List.map_set, hq, hr, ← e, List.set_getElem_self]
  cases apply_eq_ok.1 hd with
  | insert ha => simp [ha, Action.isInsertion] at hins
  | @change u name n v i' r' f ha hres' hf =>
    have hx := hres'.symm.trans hres
    cases hx
    rw [Planned.arrange_of_change _ ha]
    exact hset { r with field := f } rfl
  | remove ha hres' =>
    have hx := hres'.symm.trans hres
    cases hx
    rw [Planned.arrange_of_remove _ ha, List.erase_eq_eraseIdx_of_idxOf hidx]
    exact (List.eraseIdx_map ..).symm
  | @move u name j i' r' ha hres' =>
    have hx := hres'.symm.trans hres
    cases hx
    rw [Planned.arrange_of_move _ ha, hidx, map_moveWithin, hset r rfl]

namespace Tracks

/-- The row of a field stands where its key is. -/
theorem idxOf_key (hd : ∀ u v i, home u = some i → home v = some i → u = v)
    (h : Tracks t home k d.rows) {i : Nat} {f : Field} (hf : fate t home k u = .ok (some f))
    (hi : d.rows[i]? = some (rowOf t home k u f)) :
    (d.rows.map Row.key)[i]? = some (keyOf t home u) ∧
      (d.rows.map Row.key).idxOf (keyOf t home u) = i := by
  have hkey : (d.rows.map Row.key)[i]? = some (keyOf t home u) := by
    rw [List.getElem?_map, hi, Option.map_some, key_rowOf hf]
    rfl
  obtain ⟨hlt, e⟩ := List.getElem?_eq_some_iff.1 hkey
  refine ⟨hkey, ?_⟩
  rw [← e]
  exact (h.key_nodup hd).idxOf_getElem i hlt

theorem keys_apply (hn : t.NamesDistinct) (ha : Addressed t home (k ++ p :: l))
    (h : Tracks t home k d.rows) {s s' : Option Field} (hs : fate t home k p.uid = .ok s)
    (he : p.effect s = .ok s') (hd : d.apply p = .ok d') :
    d'.rows.map Row.key = p.arrange t home (d.rows.map Row.key) := by
  cases hp : p.action with
  | insert u j f =>
    have hhome : home p.uid = none := ha.inserted p (by simp) (by rw [hp]; rfl)
    have hkey : Row.key { field := f, uid := some p.uid } = keyOf t home p.uid := by
      rw [Row.key, keyOf, originOf_of_home_eq_none hhome]
    rw [Draft.apply_eq_ok.2 (.insert hp)] at hd
    cases hd
    rw [Planned.arrange_of_insert _ hp, List.map_insertIdx, List.length_map, hkey]
  | _ =>
    cases s with
    | none =>
      unfold Planned.effect at he
      simp [hp] at he
    | some f =>
      obtain ⟨i, hi, hres⟩ := h.resolve hn ha hs
      obtain ⟨hget, hidx⟩ := h.idxOf_key ha.distinct hs hi
      exact Draft.keys_apply_of_resolve (by rw [hp]; rfl) hres (rowOf_snoc_key k p f) hget hidx hd

/-- The order of the rows is told by the edits that affect it. -/
theorem keys_applyAll (hn : t.NamesDistinct) (ha : Addressed t home (k ++ l))
    (h : Tracks t home k d.rows) (hf : ∀ u, ∃ s, fate t home (k ++ l) u = .ok s)
    (hd : d.applyAll l = .ok d') :
    d'.rows.map Row.key = (placings l).foldl (Planned.arrange t home) (d.rows.map Row.key) := by
  rw [foldl_placings]
  induction l generalizing k d with
  | nil =>
    cases hd
    rfl
  | cons p l ih =>
    obtain ⟨d1, hd1, hd⟩ := foldlM_cons_eq_ok.1 hd
    obtain ⟨s, hs⟩ := h.fates p.uid
    have hassoc : k ++ p :: l = k ++ [p] ++ l := by simp
    obtain ⟨s1, hs1⟩ := hf p.uid
    rw [hassoc] at hs1 hf
    obtain ⟨s', hs'⟩ := fate_before hs1
    have he := effect_of_fates hs hs'
    obtain ⟨d2, hd2, h2⟩ := h.apply hn ha hs he
    have hd2 := hd2.symm.trans hd1
    cases hd2
    have hkeys := h.keys_apply hn ha hs he hd1
    rw [hassoc] at ha
    rw [List.foldl_cons, ← hkeys]
    exact ih ha h2 hf hd

/-- The same rows in the same order. -/
theorem content_eq (hd : ∀ u v i, home u = some i → home v = some i → u = v)
    (h : Tracks t home k d.rows) (hperm : (d.rows.map Row.content).Perm (d'.rows.map Row.content))
    (hkeys : d.rows.map Row.key = d'.rows.map Row.key) :
    d.rows.map Row.content = d'.rows.map Row.content := by
  have hkey : ∀ d : Draft, d.rows.map Row.key =
      (d.rows.map Row.content).map fun c => (c.1, c.2.1) := by
    intro d
    rw [List.map_map]
    rfl
  rw [hkey, hkey] at hkeys
  refine eq_of_perm_of_map_eq hperm ?_ hkeys
  intro c hc c' hc' e
  obtain ⟨r, hr, rfl⟩ := List.mem_map.1 hc
  obtain ⟨r', hr', rfl⟩ := List.mem_map.1 hc'
  rw [h.key_injOn hd hr hr' e]

end Tracks

/-- The edits that affect the order tell how the rows of the table are arranged in the end. -/
theorem Draft.keys_of_applyAll (hn : t.NamesDistinct) (ha : Addressed t home l)
    (hf : ∀ u, ∃ s, fate t home l u = .ok s) (hd : (of t).applyAll l = .ok d) :
    d.rows.map Row.key = (placings l).foldl (Planned.arrange t home) ((of t).rows.map Row.key) :=
  (tracks_of_table t home).keys_applyAll (k := []) hn ha hf hd

end Arrangement

/-- No edit of the field that affects the order is given up for another one: the field is moved once
at most, and if it is removed it is neither moved nor inserted. -/
structure KeepsPlaces (l : List Action) : Prop where
  once : l.countP Action.isMove ≤ 1
  removed : (∃ a ∈ l, a.isRemoval) → ∀ a ∈ l, a.isMove = false ∧ a.isInsertion = false

theorem KeepsPlaces.tail {a : Action} {l : List Action} (h : KeepsPlaces (a :: l)) :
    KeepsPlaces l := by
  refine ⟨?_, fun hr b hb => ?_⟩
  · have hle := h.once
    rw [List.countP_cons] at hle
    omega
  · obtain ⟨c, hc, hr⟩ := hr
    exact h.removed ⟨c, List.mem_cons_of_mem a hc, hr⟩ b (List.mem_cons_of_mem a hb)

namespace Record

/-- The recorded edits that affect the order. -/
def placing (r : Record) : List Planned :=
  r.removal.toList ++ r.insertion.toList ++ r.movement.toList

theorem map_bare_placing_withFieldName (r : Record) (name : String) :
    (r.withFieldName name).placing.map Planned.bare = r.placing.map Planned.bare := by
  unfold placing withFieldName
  cases r.removal <;> cases r.movement <;> simp

theorem placing_settled (r : Record) : r.settled.placing = r.placing := by
  unfold settled
  split <;> rfl

theorem Tidy.places {u : Uid} {r : Record} (h : r.Tidy u) {p : Planned} (hp : p ∈ r.placing) :
    p.action.places := by
  simp only [placing, List.mem_append, Option.mem_toList] at hp
  rcases hp with (hp | hp) | hp
  · obtain ⟨f, e⟩ := h.removal p hp
    rw [e]
    rfl
  · obtain ⟨i, d, e⟩ := h.insertion p hp
    rw [e]
    rfl
  · obtain ⟨f, i, e⟩ := h.movement p hp
    rw [e]
    rfl

theorem Tidy.not_places {u : Uid} {r : Record} (h : r.Tidy u) {p : Planned}
    (hp : p ∈ r.rename.toList ++ r.properties.values) : ¬ p.action.places := by
  rcases List.mem_append.1 hp with hp | hp
  · obtain ⟨f, n, v, e, -⟩ := h.rename p (Option.mem_toList.1 hp)
    simp [e, Action.places]
  · obtain ⟨k, hk⟩ := Dict.mem_values.1 hp
    obtain ⟨f, n, v, e, -⟩ := h.properties k p hk
    simp [e, Action.places]

theorem Tidy.placings_toList {u : Uid} {r : Record} (h : r.Tidy u) :
    placings r.toList = r.placing.map Planned.bare := by
  have hchange : (r.rename.toList ++ r.properties.values).filter (fun p => p.action.places) = [] :=
    List.filter_eq_nil_iff.2 fun p hp => h.not_places hp
  have hplaces : r.placing.filter (fun p => p.action.places) = r.placing :=
    List.filter_eq_self.2 fun p hp => h.places hp
  have hfilter : r.toList.filter (fun p => p.action.places) = r.placing := by
    rw [← hplaces, toList, placing, List.append_assoc _ r.rename.toList, List.filter_append,
      List.filter_append, hchange, List.append_nil, ← List.filter_append]
  rw [placings, hfilter]

section Histories

variable {u : Uid} {h : List Planned} {p : Planned} {r : Record}

theorem removal_of_history (hu : ∀ q ∈ h, q.uid = u) (hr : ofHistory h = .ok r)
    (hs : r.removal.isSome) : ∃ c ∈ h, c.action.isRemoval := by
  obtain ⟨q, hq⟩ := Option.isSome_iff_exists.1 hs
  obtain ⟨f, e⟩ := (tidy_of_history hu hr).removal q hq
  obtain ⟨c, hc, hbare⟩ := bare_of_history hr (mem_toList.2 (.inl hq))
  have haction : q.action.bare = c.action.bare := congrArg Planned.action hbare
  refine ⟨c, hc, ?_⟩
  rw [← Action.isRemoval_bare, ← haction, e]
  rfl

theorem movement_of_history (hu : ∀ q ∈ h, q.uid = u) (hr : ofHistory h = .ok r)
    (hs : r.movement.isSome) : ∃ c ∈ h, c.action.isMove := by
  obtain ⟨q, hq⟩ := Option.isSome_iff_exists.1 hs
  obtain ⟨f, i, e⟩ := (tidy_of_history hu hr).movement q hq
  obtain ⟨c, hc, hbare⟩ := bare_of_history hr (mem_toList.2 (.inr (.inr (.inr (.inr hq)))))
  have haction : q.action.bare = c.action.bare := congrArg Planned.action hbare
  refine ⟨c, hc, ?_⟩
  rw [← Action.isMove_bare, ← haction, e]
  rfl

/-- Neither a removal nor a move is recorded after a move. -/
theorem not_superseded (hu : ∀ q ∈ h, q.uid = u)
    (hk : KeepsPlaces ((p :: h).map Planned.action)) (hr : ofHistory h = .ok r)
    (hp : p.action.isMove) : ¬ (r.removal.isSome ∨ r.movement.isSome) := by
  intro hsome
  rcases hsome with hsome | hsome
  · obtain ⟨c, hc, hremoval⟩ := removal_of_history hu hr hsome
    obtain ⟨hno, -⟩ := hk.removed
      ⟨c.action, List.mem_map_of_mem (List.mem_cons_of_mem p hc), hremoval⟩
      p.action (List.mem_map_of_mem List.mem_cons_self)
    rw [hp] at hno
    cases hno
  · obtain ⟨c, hc, hmove⟩ := movement_of_history hu hr hsome
    have hpos : 0 < (h.map Planned.action).countP Action.isMove :=
      List.countP_pos_iff.2 ⟨c.action, List.mem_map_of_mem hc, hmove⟩
    have hle := hk.once
    rw [List.map_cons, List.countP_cons, if_pos hp] at hle
    omega

/-- The record of a field that is there keeps all its edits that affect the order. -/
theorem placing_of_lives (hu : ∀ q ∈ h, q.uid = u) (hl : Lives h)
    (hk : KeepsPlaces (h.map Planned.action)) (hr : ofHistory h = .ok r) :
    (r.placing.map Planned.bare).Perm (placings h) := by
  induction h generalizing r with
  | nil =>
    cases hr
    exact .refl _
  | cons p h ih =>
    obtain ⟨s, hs, ha⟩ := ofHistory_cons.1 hr
    have hu' : ∀ q ∈ h, q.uid = u := fun q hq => hu q (List.mem_cons_of_mem p hq)
    have ih := ih hu' hl.2.2 hk.tail hs
    cases ha with
    | rename ha =>
      rw [placings_cons_of_not_places (by rw [ha]; rfl), map_bare_placing_withFieldName]
      exact ih
    | merge ha =>
      rw [placings_cons_of_not_places (by rw [ha]; rfl), map_bare_placing_withFieldName]
      exact ih
    | change ha | overwritten ha =>
      rw [placings_cons_of_not_places (by rw [ha]; rfl)]
      exact ih
    | remove ha =>
      have hnil := hl.2.1 (by rw [ha]; rfl)
      subst hnil
      cases hs
      rw [placings_cons_of_places (by rw [ha]; rfl)]
      exact .refl _
    | cancel ha | insert ha =>
      have hno := hl.1
      rw [ha] at hno
      cases hno
    | move ha h1 h2 =>
      rw [placings_cons_of_places (by rw [ha]; rfl)]
      unfold placing at ih ⊢
      simp only [h1, h2, Option.toList_none, Option.toList_some, List.nil_append, List.append_nil,
        List.map_append] at ih ⊢
      exact (List.perm_append_singleton ..).trans (ih.cons _)
    | superseded ha h1 =>
      exact absurd h1 (not_superseded hu' hk hs (by rw [ha]; rfl))

/-- And so does that of an inserted one. -/
theorem placing_of_inserted {v : Uid} {j : Nat} {f : Field} (hp : p.action = .insert v j f)
    (hu : ∀ q ∈ h, q.uid = u) (hl : Lives h)
    (hi : ∀ s, ofHistory h = .ok s → s.insertion = none)
    (hk : KeepsPlaces ((p :: h).map Planned.action)) (hr : ofHistory (p :: h) = .ok r) :
    (r.placing.map Planned.bare).Perm (placings (p :: h)) := by
  obtain ⟨s, hs, ha⟩ := ofHistory_cons.1 hr
  have hperm := placing_of_lives hu hl hk.tail hs
  rw [placings_cons_of_places (by rw [hp]; rfl)]
  cases ha with
  | cancel ha h1 =>
    obtain ⟨c, hc, hremoval⟩ := removal_of_history hu hs h1
    obtain ⟨-, hno⟩ := hk.removed
      ⟨c.action, List.mem_map_of_mem (List.mem_cons_of_mem p hc), hremoval⟩
      p.action (List.mem_map_of_mem List.mem_cons_self)
    rw [hp] at hno
    cases hno
  | @insert v' j' _ g ha h1 h2 =>
    have hbare : Planned.bare { p with action := .insert v' j' g } = p.bare := by
      rw [Planned.bare, Planned.bare, ha]
      rfl
    unfold placing at hperm ⊢
    simp only [h1, hi s hs, Option.toList_none, Option.toList_some, List.nil_append,
      List.map_append, List.map_cons, List.map_nil] at hperm ⊢
    rw [hbare]
    exact hperm.cons _
  | rename ha | merge ha | change ha | overwritten ha | remove ha | move ha | superseded ha =>
    rw [hp] at ha
    cases ha

end Histories

end Record

section Lists

variable {k l : List Planned}

theorem filter_placings (u : Uid) (l : List Planned) :
    (placings l).filter (fun p => p.uid = u) = placings (editsOf u l) := by
  have huid : ∀ p : Planned, p.bare.uid = p.uid := fun p => Action.uid_bare p.action
  unfold placings editsOf
  rw [List.filter_map, List.filter_filter, List.filter_filter]
  congr 1
  refine List.filter_congr fun p _ => ?_
  simp only [Function.comp, huid, Bool.and_comm]

theorem placings_perm (h : ∀ u, (placings (editsOf u k)).Perm (placings (editsOf u l))) :
    (placings k).Perm (placings l) := by
  refine perm_of_editsOf fun u => ?_
  rw [editsOf, editsOf, filter_placings, filter_placings]
  exact h u

theorem placings_eq (h : (placings k).Perm (placings l)) (hk : k.Pairwise Planned.NotAfter)
    (hl : l.Pairwise fun p q => p.order < q.order) : placings k = placings l := by
  have hk' : (placings k).Pairwise Planned.NotAfter := by
    unfold placings
    exact List.pairwise_map.2 (hk.filter _)
  have hl' : (placings l).Pairwise fun p q => p.order < q.order := by
    unfold placings
    exact List.pairwise_map.2 (hl.filter _)
  exact eq_of_perm_of_ascending h hk' hl'

end Lists

end TableAlteration
