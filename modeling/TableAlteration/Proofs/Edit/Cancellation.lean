import TableAlteration.Proofs.Edit.Coherence
import TableAlteration.Proofs.Edit.Keys

namespace TableAlteration

/-- The fields that are inserted and removed again. -/
def isCancelled (l : List Planned) (u : Uid) : Bool :=
  (editsOf u l).any (·.action.isInsertion) && (editsOf u l).any (·.action.isRemoval)

section Beginnings

variable {k l m : List Planned} {p : Planned}

theorem filter_order_prefix (h : l.Pairwise Planned.NotAfter) (n : Nat) :
    l.filter (fun q => q.order < n) <+: l := by
  induction l with
  | nil => exact List.prefix_rfl
  | cons q l ih =>
    obtain ⟨hq, hl⟩ := List.pairwise_cons.1 h
    by_cases hlt : q.order < n
    · rw [List.filter_cons, if_pos (by simpa using hlt)]
      exact List.cons_prefix_cons.2 ⟨rfl, ih hl⟩
    · have hnone : (q :: l).filter (fun q => q.order < n) = [] := by
        refine List.filter_eq_nil_iff.2 fun r hr => ?_
        rcases List.mem_cons.1 hr with rfl | hr
        · simpa using hlt
        · have hle : q.order ≤ r.order := hq r hr
          simp only [decide_eq_true_eq]
          omega
      rw [hnone]
      exact List.nil_prefix

theorem filter_order_eq (h : (k ++ p :: m).Pairwise fun a b => a.order < b.order) :
    (k ++ p :: m).filter (fun q => q.order < p.order) = k := by
  obtain ⟨-, hm, hlt⟩ := List.pairwise_append.1 h
  have hnone : (p :: m).filter (fun q => q.order < p.order) = [] := by
    refine List.filter_eq_nil_iff.2 fun q hq => ?_
    rcases List.mem_cons.1 hq with rfl | hq
    · simp
    · have hpq := (List.pairwise_cons.1 hm).1 q hq
      simp only [decide_eq_true_eq]
      omega
  have hall : k.filter (fun q => q.order < p.order) = k :=
    List.filter_eq_self.2 fun q hq => by simpa using hlt q hq p List.mem_cons_self
  rw [List.filter_append, hnone, hall, List.append_nil]

theorem placings_filter_order (l : List Planned) (n : Nat) :
    placings (l.filter fun q => q.order < n) = (placings l).filter fun q => q.order < n := by
  unfold placings
  rw [List.filter_map, List.filter_comm]
  rfl

end Beginnings

section Cancelled

variable {t : Table} {home : Uid → Option Nat} {actions : List Action} {l : List Planned}
  {u : Uid} {rows : List Row} {r : Reduction}

theorem isCancelled_iff : isCancelled l u ↔
    (∃ p ∈ editsOf u l, p.action.isInsertion) ∧ ∃ p ∈ editsOf u l, p.action.isRemoval := by
  simp [isCancelled]

theorem editsOf_not_cancelled (l : List Planned) (u : Uid) :
    editsOf u (l.filter fun p => !isCancelled l p.uid) =
      if isCancelled l u then [] else editsOf u l := by
  have huid : ∀ p ∈ editsOf u l, isCancelled l p.uid = isCancelled l u := fun p hp => by
    rw [(mem_editsOf.1 hp).2]
  have hcomm : editsOf u (l.filter fun p => !isCancelled l p.uid) =
      (editsOf u l).filter fun p => !isCancelled l p.uid := List.filter_comm ..
  rw [hcomm]
  split
  · rename_i h
    exact List.filter_eq_nil_iff.2 fun p hp => by simp [huid p hp, h]
  · rename_i h
    exact List.filter_eq_self.2 fun p hp => by simpa [huid p hp] using h

theorem Tracks.keyOf_notMem_of_removal (hd : ∀ u v i, home u = some i → home v = some i → u = v)
    (hl : Living t home l) (h : Tracks t home l rows)
    (hr : ∃ p ∈ editsOf u l, p.action.isRemoval) : keyOf t home u ∉ rows.map Row.key := by
  intro hmem
  obtain ⟨f, hf⟩ := (h.keyOf_mem_iff hd).1 hmem
  cases (hl.fate_eq_none_iff hf).2 (.inr hr)

theorem isMove_of_planAll (hp : planAll actions = .ok l) (hm : ∀ a ∈ actions, a.isMove = false) :
    ∀ p ∈ l, p.action.isMove = false := fun p hpl =>
  hm p.action (planAll_actions hp ▸ List.mem_map_of_mem hpl)

theorem keepsPlaces_of_not_cancelled (hp : planAll actions = .ok l) (hm : ∀ a ∈ actions, a.isMove = false)
    (h : isCancelled l u = false) : KeepsPlaces (actions.filter fun a => a.uid = u) := by
  have hmoves : ∀ a ∈ actions.filter (fun a => a.uid = u), a.isMove = false :=
    fun a ha => hm a (List.mem_filter.1 ha).1
  refine ⟨?_, fun hrem a ha => ⟨hmoves a ha, ?_⟩⟩
  · rw [List.countP_eq_zero.2 fun a ha => by simp [hmoves a ha]]
    exact Nat.zero_le 1
  · by_contra hins
    rw [← actions_editsOf (planAll_actions hp)] at hrem ha
    obtain ⟨b, hb, hrem⟩ := hrem
    obtain ⟨q, hq, rfl⟩ := List.mem_map.1 ha
    obtain ⟨c, hcmem, rfl⟩ := List.mem_map.1 hb
    have hcancelled := isCancelled_iff.2 ⟨⟨q, hq, by simpa using hins⟩, c, hcmem, hrem⟩
    rw [h] at hcancelled
    cases hcancelled

namespace Coherent

/-- Nothing is left of a field that is inserted and removed again. -/
theorem ordered_of_cancelled (hc : Coherent t home actions) (hp : planAll actions = .ok l)
    (hr : Reduction.of l = .ok r) (h : isCancelled l u) :
    home u = none ∧ editsOf u r.ordered = [] := by
  obtain ⟨⟨q, hq, hins⟩, c, hcmem, hrem⟩ := isCancelled_iff.1 h
  obtain ⟨hql, rfl⟩ := mem_editsOf.1 hq
  have hu := (hc.addressed (planAll_actions hp)).inserted q hql hins
  refine ⟨hu, ?_⟩
  rcases hc.ordered_of_inserted hp hr hu with
    ⟨he, -⟩ | ⟨p, k, j, f, he, ha, ⟨-, he'⟩ | ⟨hkept, -⟩⟩
  · rw [he] at hq
    cases hq
  · exact he'
  · rw [he] at hcmem
    rcases List.mem_cons.1 hcmem with rfl | hck
    · rw [ha] at hrem
      cases hrem
    · rw [hkept c hck] at hrem
      cases hrem

/-- Without moves, what is left are the edits of the fields that are not cancelled. -/
theorem placings_ordered_of_no_moves (hc : Coherent t home actions) (hp : planAll actions = .ok l)
    (hm : ∀ a ∈ actions, a.isMove = false) (hr : Reduction.of l = .ok r) :
    placings r.ordered = placings (l.filter fun p => !isCancelled l p.uid) := by
  refine placings_eq (placings_perm fun u => ?_) (inOrder_pairwise _)
    ((planAll_ascending hp).filter _)
  rw [editsOf_not_cancelled]
  cases h : isCancelled l u with
  | true =>
    rw [(hc.ordered_of_cancelled hp hr h).2]
    exact .refl _
  | false => exact hc.placings_editsOf_ordered hp (keepsPlaces_of_not_cancelled hp hm h) hr

end Coherent

end Cancelled

section Orders

variable {t : Table} {home : Uid → Option Nat} {actions : List Action} {l : List Planned}
  {d d' : Draft} {r : Reduction}

/-- When a field of `d` is inserted, it comes to stand behind the same ones of the other fields of
`d`, whether the edits before have been made as they stand or what is left of them. -/
def Reduction.InsertsAlike (r : Reduction) (t : Table) (home : Uid → Option Nat)
    (l : List Planned) (d : Draft) : Prop :=
  ∀ k p m, l = k ++ p :: m → ∃ e e', (Draft.of t).applyAll k = .ok e ∧
    (Draft.of t).applyAll (r.ordered.filter fun q => q.order < p.order) = .ok e' ∧
    p.PutsAlike t home (fun x => x ∈ d.rows.map Row.key) (e.rows.map Row.key) (e'.rows.map Row.key)

/-- No field that stays is inserted behind a cancelled one. -/
def InsertsBefore (t : Table) (l : List Planned) : Prop :=
  ∀ k p m u j f e, l = k ++ p :: m → p.action = .insert u j f → isCancelled l u = false →
    (Draft.of t).applyAll k = .ok e → ∀ x ∈ e.rows.take j, x.uid.any (isCancelled l) = false

namespace Coherent

theorem tracks (hn : t.NamesDistinct) (hc : Coherent t home actions) (hp : planAll actions = .ok l)
    (hd : (Draft.of t).applyAll l = .ok d) : Tracks t home l d.rows :=
  (tracks_of_table t home).of_applyAll (k := []) hn (hc.addressed (planAll_actions hp))
    (hc.living (planAll_actions hp)) hd

theorem tracks_ordered (hn : t.NamesDistinct) (hc : Coherent t home actions)
    (hp : planAll actions = .ok l) (hr : Reduction.of l = .ok r)
    (hd : (Draft.of t).applyAll r.ordered = .ok d') : Tracks t home r.ordered d'.rows :=
  (tracks_of_table t home).of_applyAll (k := []) hn (hc.addressed_ordered hp hr)
    (hc.living_ordered hp hr) hd

theorem key_perm_ordered (hn : t.NamesDistinct) (hc : Coherent t home actions)
    (hp : planAll actions = .ok l) (hd : (Draft.of t).applyAll l = .ok d)
    (hr : Reduction.of l = .ok r) (hd' : (Draft.of t).applyAll r.ordered = .ok d') :
    (d.rows.map Row.key).Perm (d'.rows.map Row.key) := by
  have hliving := hc.living (planAll_actions hp)
  have hliving' := hc.living_ordered hp hr
  refine (hc.tracks hn hp hd).key_perm hc.distinct (hc.tracks_ordered hn hp hr hd')
    fun u s s' hs hs' => ?_
  rw [hliving.fate_eq_none_iff hs, hliving'.fate_eq_none_iff hs']
  exact hc.gone_iff hp hr u

/-- What is left can be made up to every edit, and the rows stand then as if the cancelled fields
had never been. -/
theorem keys_ordered_before (hn : t.NamesDistinct) (hc : Coherent t home actions)
    (hp : planAll actions = .ok l) (hm : ∀ a ∈ actions, a.isMove = false)
    (hr : Reduction.of l = .ok r) (hd' : (Draft.of t).applyAll r.ordered = .ok d')
    {k m : List Planned} {p : Planned} (e : l = k ++ p :: m) :
    ∃ e', (Draft.of t).applyAll (r.ordered.filter fun q => q.order < p.order) = .ok e' ∧
      e'.rows.map Row.key = (k.filter fun q => !isCancelled l q.uid).foldl (Planned.arrange t home)
        ((Draft.of t).rows.map Row.key) := by
  have ho : (k ++ p :: m).Pairwise fun a b => a.order < b.order := e ▸ planAll_ascending hp
  have hk : (l.filter fun q => !isCancelled l q.uid).filter (fun q => q.order < p.order) =
      k.filter fun q => !isCancelled l q.uid := by
    rw [List.filter_comm]
    congr 1
    rw [e]
    exact filter_order_eq ho
  obtain ⟨rest, hrest⟩ := filter_order_prefix (inOrder_pairwise r.toList) p.order
  have hordered : r.ordered = r.ordered.filter (fun q => q.order < p.order) ++ rest := hrest.symm
  have ha := hc.addressed_ordered hp hr
  have htracks := hc.tracks_ordered hn hp hr hd'
  rw [hordered] at ha htracks hd'
  obtain ⟨e', he', hkeys⟩ := htracks.keys_before hn ha hd'
  refine ⟨e', he', ?_⟩
  rw [hkeys, placings_filter_order, hc.placings_ordered_of_no_moves hp hm hr,
    ← placings_filter_order, hk, foldl_placings]

theorem keys_of_run (hn : t.NamesDistinct) (hc : Coherent t home actions)
    (hp : planAll actions = .ok l) (hd : (Draft.of t).applyAll l = .ok d) :
    d.rows.map Row.key =
      l.foldl (Planned.arrange t home) ((Draft.of t).rows.map Row.key) := by
  rw [Draft.keys_of_applyAll hn (hc.addressed (planAll_actions hp)) (hc.tracks hn hp hd).fates hd,
    foldl_placings]

/-- Both runs can be stopped before an edit. -/
theorem keys_before (hn : t.NamesDistinct) (hc : Coherent t home actions)
    (hp : planAll actions = .ok l) (hm : ∀ a ∈ actions, a.isMove = false)
    (hd : (Draft.of t).applyAll l = .ok d) (hr : Reduction.of l = .ok r)
    (hd' : (Draft.of t).applyAll r.ordered = .ok d') {k m : List Planned} {p : Planned}
    (e : l = k ++ p :: m) :
    ∃ f f', (Draft.of t).applyAll k = .ok f ∧
      (Draft.of t).applyAll (r.ordered.filter fun q => q.order < p.order) = .ok f' ∧
      f.rows.map Row.key =
        k.foldl (Planned.arrange t home) ((Draft.of t).rows.map Row.key) ∧
      f'.rows.map Row.key = (k.filter fun q => !isCancelled l q.uid).foldl (Planned.arrange t home)
        ((Draft.of t).rows.map Row.key) := by
  obtain ⟨f', hf', hkeys'⟩ := hc.keys_ordered_before hn hp hm hr hd' e
  have ha := hc.addressed (planAll_actions hp)
  have htracks := hc.tracks hn hp hd
  rw [e] at ha htracks hd
  obtain ⟨f, hf, hkeys⟩ := htracks.keys_before hn ha hd
  rw [foldl_placings] at hkeys
  exact ⟨f, f', hf, hf', hkeys, hkeys'⟩

theorem keys_ordered (hn : t.NamesDistinct) (hc : Coherent t home actions)
    (hp : planAll actions = .ok l) (hm : ∀ a ∈ actions, a.isMove = false)
    (hr : Reduction.of l = .ok r) (hd' : (Draft.of t).applyAll r.ordered = .ok d') :
    d'.rows.map Row.key = (l.filter fun q => !isCancelled l q.uid).foldl (Planned.arrange t home)
      ((Draft.of t).rows.map Row.key) := by
  have hfates := (hc.tracks_ordered hn hp hr hd').fates
  rw [Draft.keys_of_applyAll hn (hc.addressed_ordered hp hr) hfates hd',
    hc.placings_ordered_of_no_moves hp hm hr, foldl_placings]

theorem keys_eq_iff (hn : t.NamesDistinct) (hc : Coherent t home actions)
    (hp : planAll actions = .ok l) (hm : ∀ a ∈ actions, a.isMove = false)
    (hd : (Draft.of t).applyAll l = .ok d) (hr : Reduction.of l = .ok r)
    (hd' : (Draft.of t).applyAll r.ordered = .ok d') :
    d.rows.map Row.key = d'.rows.map Row.key ↔ r.InsertsAlike t home l d := by
  have hactions := planAll_actions hp
  have htracks := hc.tracks hn hp hd
  have hperm := hc.key_perm_ordered hn hp hd hr hd'
  have hself : (d.rows.map Row.key).filter (fun x => x ∈ d.rows.map Row.key) =
      d.rows.map Row.key := List.filter_eq_self.2 fun x hx => by simpa using hx
  have hself' : (d'.rows.map Row.key).filter (fun x => x ∈ d.rows.map Row.key) =
      d'.rows.map Row.key :=
    List.filter_eq_self.2 fun x hx => decide_eq_true (hperm.mem_iff.2 hx)
  have hgone : ∀ u, (∃ q ∈ editsOf u l, q.action.isRemoval) →
      decide (keyOf t home u ∈ d.rows.map Row.key) = false := fun u h =>
    decide_eq_false (htracks.keyOf_notMem_of_removal hc.distinct (hc.living hactions) h)
  have hiff := filter_foldl_eq_iff (t := t) (l := l)
    (s := fun x => x ∈ d.rows.map Row.key) (c := fun q => !isCancelled l q.uid)
    (a := (Draft.of t).rows.map Row.key) (b := (Draft.of t).rows.map Row.key) (isMove_of_planAll hp hm)
    (fun p hp hrem => hgone p.uid ⟨p, mem_editsOf.2 ⟨hp, rfl⟩, hrem⟩)
    (fun p _ hcan => hgone p.uid (isCancelled_iff.1 (by simpa using hcan)).2)
  rw [← hc.keys_of_run hn hp hd, ← hc.keys_ordered hn hp hm hr hd', hself, hself'] at hiff
  rw [hiff (htracks.key_nodup hc.distinct)]
  constructor
  · intro h k p m e
    obtain ⟨f, f', hf, hf', hkeys, hkeys'⟩ := hc.keys_before hn hp hm hd hr hd' e
    refine ⟨f, f', hf, hf', ?_⟩
    rw [hkeys, hkeys']
    exact h.2 k p m e
  · intro h
    refine ⟨rfl, fun k p m e => ?_⟩
    obtain ⟨f, f', hf, hf', hkeys, hkeys'⟩ := hc.keys_before hn hp hm hd hr hd' e
    obtain ⟨g, g', hg, hg', hput⟩ := h k p m e
    cases hf.symm.trans hg
    cases hf'.symm.trans hg'
    rwa [hkeys, hkeys'] at hput

/-- The rows of the table are not bound to inserted fields, and the other fields are told by their
keys. -/
theorem key_any_isCancelled (hc : Coherent t home actions) (hp : planAll actions = .ok l)
    (hr : Reduction.of l = .ok r) (u : Uid) :
    (keyOf t home u).2.any (isCancelled l) = isCancelled l u := by
  unfold keyOf
  cases ho : originOf t home u with
  | none => rfl
  | some o =>
    cases h : isCancelled l u with
    | false => rfl
    | true =>
      have hu := (hc.ordered_of_cancelled hp hr h).1
      rw [originOf_of_home_eq_none hu] at ho
      cases ho

theorem keys_eq_of_insertsBefore (hn : t.NamesDistinct) (hc : Coherent t home actions)
    (hp : planAll actions = .ok l) (hm : ∀ a ∈ actions, a.isMove = false)
    (hd : (Draft.of t).applyAll l = .ok d) (hr : Reduction.of l = .ok r)
    (hd' : (Draft.of t).applyAll r.ordered = .ok d') (hb : InsertsBefore t l) :
    d.rows.map Row.key = d'.rows.map Row.key := by
  have hstart : ((Draft.of t).rows.map Row.key).filter (fun x => !x.2.any (isCancelled l)) =
      (Draft.of t).rows.map Row.key := by
    refine List.filter_eq_self.2 fun x hx => ?_
    obtain ⟨row, hrow, rfl⟩ := List.mem_map.1 hx
    obtain ⟨⟨f, i⟩, -, rfl⟩ := List.mem_map.1 hrow
    rfl
  have hkey : ∀ p ∈ l, (!(keyOf t home p.uid).2.any (isCancelled l)) = !isCancelled l p.uid :=
    fun p _ => by rw [hc.key_any_isCancelled hp hr]
  have hfold := filter_foldl_eq (s := fun x => !x.2.any (isCancelled l))
    (c := fun q => !isCancelled l q.uid) (a := (Draft.of t).rows.map Row.key) (isMove_of_planAll hp hm)
    hkey ?_
  · rw [hstart, ← hc.keys_of_run hn hp hd, ← hc.keys_ordered hn hp hm hr hd'] at hfold
    have hsub : (d'.rows.map Row.key).Sublist (d.rows.map Row.key) := hfold ▸ List.filter_sublist
    exact (hsub.eq_of_length (hc.key_perm_ordered hn hp hd hr hd').length_eq.symm).symm
  · intro k p m e u j f hp' hkept x hx
    obtain ⟨g, -, hg, -, hkeys, -⟩ := hc.keys_before hn hp hm hd hr hd' e
    rw [← hkeys, ← List.map_take] at hx
    obtain ⟨row, hrow, rfl⟩ := List.mem_map.1 hx
    have huid : p.uid = u := by rw [Planned.uid, hp']; rfl
    have hno := hb k p m u j f g e hp' (by simpa [huid] using hkept) hg row hrow
    rw [Row.key]
    split
    · simpa using hno
    · rfl

end Coherent

/-- Without moves, what is left of the edits leaves the same fields. Their order is the same exactly
if all that are inserted come to stand alike at once, and it is if none is inserted behind a
cancelled one. -/
theorem Reduction.order_kept_iff (hn : t.NamesDistinct) (hc : Coherent t home actions)
    (hm : ∀ a ∈ actions, a.isMove = false) (hp : planAll actions = .ok l)
    (hd : (Draft.of t).applyAll l = .ok d) (hr : Reduction.of l = .ok r)
    (hd' : (Draft.of t).applyAll r.ordered = .ok d') :
    (d.rows.map Row.key).Perm (d'.rows.map Row.key) ∧
      (d.rows.map Row.key = d'.rows.map Row.key ↔ r.InsertsAlike t home l d) ∧
      (InsertsBefore t l → d.rows.map Row.key = d'.rows.map Row.key) :=
  ⟨hc.key_perm_ordered hn hp hd hr hd', hc.keys_eq_iff hn hp hm hd hr hd',
    hc.keys_eq_of_insertsBefore hn hp hm hd hr hd'⟩

end Orders

section Replacement

def twoFields : Table :=
  ⟨"t", [{ name := "a", type := .integer }, { name := "b", type := .integer }], []⟩

/-- A field is put in at `i`, another one at `j`, and the first one is removed again. -/
def replacement (i j : Nat) : List Action :=
  [.insert ⟨1⟩ i { name := "x", type := .integer }, .insert ⟨2⟩ j { name := "y", type := .integer },
    .remove ⟨1⟩ "x"]

theorem coherent_replacement (i j : Nat) :
    Coherent twoFields (fun _ => none) (replacement i j) := by
  refine ⟨by simp, by simp, fun u _ => ?_⟩
  by_cases h1 : (⟨1⟩ : Uid) = u
  · subst h1
    exact .inr ⟨i, { name := "x", type := .integer }, [.remove ⟨1⟩ "x"], rfl, by decide⟩
  · by_cases h2 : (⟨2⟩ : Uid) = u
    · subst h2
      exact .inr ⟨j, { name := "y", type := .integer }, [], rfl, trivial⟩
    · exact .inl (by simp [replacement, Action.uid, h1, h2])

/-- The field that stays is put in before the other one. -/
theorem Reduction.order_kept_iff_of_replacement : ∃ l d r d', planAll (replacement 2 1) = .ok l ∧
    (Draft.of twoFields).applyAll l = .ok d ∧ Reduction.of l = .ok r ∧
    (Draft.of twoFields).applyAll r.ordered = .ok d' ∧
    d.table.names = ["a", "y", "b"] ∧ d'.table.names = ["a", "y", "b"] ∧
    r.InsertsAlike twoFields (fun _ => none) l d := by
  refine ⟨_, _, _, _, rfl, rfl, rfl, rfl, by decide, by decide, ?_⟩
  obtain ⟨-, hiff, -⟩ := Reduction.order_kept_iff (by decide) (coherent_replacement 2 1) (by decide)
    rfl rfl rfl rfl
  exact hiff.1 (by decide)

/-- A field that is put in behind one that is removed again does not come to stand where it stood. -/
theorem Reduction.order_differs : twoFields.NamesDistinct ∧
    Coherent twoFields (fun _ => none) (replacement 0 1) ∧
    (∀ a ∈ replacement 0 1, a.isMove = false) ∧ ∃ l d r d', planAll (replacement 0 1) = .ok l ∧
      (Draft.of twoFields).applyAll l = .ok d ∧ Reduction.of l = .ok r ∧
      (Draft.of twoFields).applyAll r.ordered = .ok d' ∧
      d.table.names = ["y", "a", "b"] ∧ d'.table.names = ["a", "y", "b"] :=
  ⟨by decide, coherent_replacement 0 1, by decide, _, _, _, _, rfl, rfl, rfl, rfl, by decide,
    by decide⟩

end Replacement

end TableAlteration
