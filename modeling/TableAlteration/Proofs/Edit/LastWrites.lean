import TableAlteration.Proofs.Edit.History

namespace TableAlteration

/-- `type` and `primaryKey` are set at most once. -/
def SetsOnce (l : List Action) : Prop :=
  ∀ k ∈ ["type", "primarykey"], l.countP (fun a => a.propertyKey? = some k) ≤ 1

instance (l : List Action) : Decidable (SetsOnce l) :=
  inferInstanceAs (Decidable (∀ k ∈ ["type", "primarykey"], _ ≤ 1))

theorem SetsOnce.tail {a : Action} {l : List Action} (h : SetsOnce (a :: l)) : SetsOnce l := by
  intro k hk
  have h' := h k hk
  rw [List.countP_cons] at h'
  omega

theorem SetsOnce.not_again {a b : Action} {l : List Action} (h : SetsOnce (a :: l)) (hb : b ∈ l)
    {k : String} (hk : k = "type" ∨ k = "primarykey") (ha : a.propertyKey? = some k) :
    b.propertyKey? ≠ some k := by
  intro e
  have h' := h k (by simpa using hk)
  have hpos : 0 < l.countP (fun a => a.propertyKey? = some k) :=
    List.countP_pos_iff.2 ⟨b, hb, by simpa using e⟩
  rw [List.countP_cons, if_pos (by simpa using ha)] at h'
  omega

theorem Action.propertyKey?_bare (a : Action) : a.bare.propertyKey? = a.propertyKey? := by
  cases a <;> rfl

namespace Record

theorem applyChange_withFieldName (f : Field) (n : String) (p : Planned) :
    applyChange f (p.withFieldName n) = applyChange f p := by
  unfold applyChange Planned.withFieldName
  cases p.action <;> rfl

theorem values_withFieldName (r : Record) (n : String) :
    (r.withFieldName n).properties.values =
      r.properties.values.map (Planned.withFieldName n) := by
  simp [withFieldName, Dict.values, Dict.map]

theorem definitionChanges_withFieldName (r : Record) (n : String) :
    (r.withFieldName n).definitionChanges =
      r.definitionChanges.map (Planned.withFieldName n) := by
  have horder : ∀ p : Planned, (p.withFieldName n).order = p.order := fun _ => rfl
  unfold definitionChanges
  rw [← inOrder_map horder, List.map_append, values_withFieldName]
  congr 2
  cases h : r.rename <;> simp [withFieldName, h]

theorem foldInto_withFieldName (r : Record) (n : String) (f : Field) :
    (r.withFieldName n).foldInto f = r.foldInto f := by
  unfold foldInto
  rw [definitionChanges_withFieldName, List.foldlM_map]
  simp only [applyChange_withFieldName]

theorem mem_definitionChanges {r : Record} {p : Planned} :
    p ∈ r.definitionChanges ↔ r.rename = some p ∨ ∃ k, r.properties.get? k = some p := by
  simp [definitionChanges, Dict.mem_values]

theorem mem_toList_of_mem_definitionChanges {r : Record} {p : Planned}
    (h : p ∈ r.definitionChanges) : p ∈ r.toList := by
  rw [mem_toList]
  rcases mem_definitionChanges.1 h with h | h
  · exact .inr (.inr (.inl h))
  · exact .inr (.inr (.inr (.inl h)))

/-- A rename before all recorded changes is made first. -/
theorem definitionChanges_rename {r : Record} {p : Planned} (h : r.rename = none)
    (hp : ∀ q ∈ r.definitionChanges, p.order < q.order) :
    definitionChanges { r with rename := some p } = p :: r.definitionChanges := by
  unfold definitionChanges at hp ⊢
  simp only [h, Option.toList_none, List.nil_append, mem_inOrder] at hp ⊢
  exact inOrder_cons fun q hq => Nat.le_of_lt (hp q hq)

/-- And so is a change of another property. -/
theorem definitionChanges_insert {r : Record} {p : Planned} {k : String}
    (h : r.properties.get? k = none) (hp : ∀ q ∈ r.definitionChanges, p.order < q.order) :
    definitionChanges { r with properties := r.properties.insert k p } =
      p :: r.definitionChanges := by
  obtain ⟨a, b, e, e'⟩ := Dict.values_insert_of_get?_none p h
  unfold definitionChanges at hp ⊢
  simp only [e, e', mem_inOrder, ← List.append_assoc] at hp ⊢
  exact inOrder_middle hp

/-- What a change makes of `f` does not matter if its property is recorded to be set later. -/
theorem foldInto_of_overwritten {r : Record} {f f1 g : Field} {p c : Planned} {u fd n v}
    {u' fd' n' v'} (ha : p.action = .change u fd n v) (hc : c ∈ r.definitionChanges)
    (hca : c.action = .change u' fd' n' v') (hn : Text.fold n' = Text.fold n)
    (hk : ¬ (Text.fold n = "type" ∨ Text.fold n = "primarykey"))
    (hp : applyChange f p = .ok f1) (hr : r.foldInto f1 = .ok g) : r.foldInto f = .ok g := by
  rw [applyChange_of_change ha] at hp
  obtain ⟨q, hq, hset⟩ := Field.setNamed_eq_ok.1 hp
  have hone : q.standsAlone := by
    cases hs : q.standsAlone with
    | true => rfl
    | false => exact absurd ((Property.standsAlone_iff hq).1 hs) hk
  have hq' : Property.ofName? n' = some q := by rw [Property.ofName?_congr hn, hq]
  exact changes_overwritten hone (Field.forget_of_alters hone (Field.alters_of_set hset)) hc hca
    hq' hr

theorem order_lt_of_history {p : Planned} {h : List Planned} {r : Record}
    (hs : (p :: h).Pairwise fun a b => a.order < b.order) (hr : ofHistory h = .ok r) :
    ∀ q ∈ r.toList, p.order < q.order := by
  intro q hq
  obtain ⟨q', hq', e⟩ := bare_of_history hr hq
  rw [Planned.order_of_bare e]
  exact (List.pairwise_cons.1 hs).1 q' hq'

section Steps

variable {u u' : Uid} {r : Record} {p : Planned} {f f1 g : Field} {fd n : String} {v : Value}

theorem absorbs_rename (tidy : r.Tidy u) (hlt : ∀ q ∈ r.definitionChanges, p.order < q.order)
    (hr0 : r.removal = none) (hp : p.action = .change u' fd n v) (hn : Text.sameName n "name")
    (h1 : applyChange f p = .ok f1) (hfold : r.foldInto f1 = .ok g) :
    ∃ r', Absorbs p r r' ∧ r'.removal = none ∧ r'.foldInto f = .ok g := by
  cases hren : r.rename with
  | none =>
    refine ⟨_, .rename hp hn hren hr0, ?_, ?_⟩
    · simp [withFieldName, hr0]
    · rw [foldInto_withFieldName, foldInto, definitionChanges_rename hren hlt]
      exact foldlM_cons_eq_ok.2 ⟨f1, h1, hfold⟩
  | some c =>
    refine ⟨_, .merge hp hn (by simp [hren]), ?_, ?_⟩
    · simp [withFieldName, hr0]
    · rw [foldInto_withFieldName]
      obtain ⟨fd', n', v', hc, hn'⟩ := tidy.rename c hren
      rw [Text.sameName_iff] at hn hn'
      refine foldInto_of_overwritten hp (mem_definitionChanges.2 (.inl hren)) hc
        (hn'.trans hn.symm) ?_ h1 hfold
      rw [hn]
      decide

theorem absorbs_change (tidy : r.Tidy u) (hlt : ∀ q ∈ r.definitionChanges, p.order < q.order)
    (hr0 : r.removal = none) (hp : p.action = .change u' fd n v) (hn : ¬ Text.sameName n "name")
    (hk : ∀ c, r.properties.get? (Text.fold n) = some c →
      ¬ (Text.fold n = "type" ∨ Text.fold n = "primarykey"))
    (h1 : applyChange f p = .ok f1) (hfold : r.foldInto f1 = .ok g) :
    ∃ r', Absorbs p r r' ∧ r'.removal = none ∧ r'.foldInto f = .ok g := by
  cases hget : r.properties.get? (Text.fold n) with
  | none =>
    refine ⟨_, .change hp hn hr0 hget, hr0, ?_⟩
    rw [foldInto, definitionChanges_insert hget hlt]
    exact foldlM_cons_eq_ok.2 ⟨f1, h1, hfold⟩
  | some c =>
    refine ⟨r, .overwritten hp hn (.inr (by simp [hget])), hr0, ?_⟩
    obtain ⟨fd', n', v', hc, hn', -⟩ := tidy.properties _ c hget
    have hcm : c ∈ r.definitionChanges := mem_definitionChanges.2 (.inr ⟨_, hget⟩)
    exact foldInto_of_overwritten hp hcm hc hn' (hk c hget) h1 hfold

/-- A property that can be set once only is not among the recorded ones before it is set. -/
theorem not_setOnce_of_recorded {h : List Planned} {c : Planned} (hr : ofHistory h = .ok r)
    (tidy : r.Tidy u) (ho : SetsOnce ((p :: h).map Planned.action))
    (hp : p.action = .change u' fd n v) (hget : r.properties.get? (Text.fold n) = some c) :
    ¬ (Text.fold n = "type" ∨ Text.fold n = "primarykey") := by
  intro hk
  obtain ⟨fd', n', v', hc, hn', -⟩ := tidy.properties _ c hget
  have hcm : c ∈ r.definitionChanges := mem_definitionChanges.2 (.inr ⟨_, hget⟩)
  obtain ⟨c', hc', e⟩ := bare_of_history hr (mem_toList_of_mem_definitionChanges hcm)
  have e' : c.action.bare = c'.action.bare := congrArg Planned.action e
  refine ho.not_again (List.mem_map_of_mem hc') hk (by rw [hp]; rfl) ?_
  rw [← Action.propertyKey?_bare, ← e', Action.propertyKey?_bare, hc, ← hn']
  rfl

end Steps

/-- The changes that a record keeps make of a definition what the whole history makes of it. -/
theorem foldInto_of_history {u : Uid} {name : String} {h : List Planned} {f g : Field}
    (hs : h.Pairwise fun a b => a.order < b.order) (hu : ∀ p ∈ h, p.uid = u)
    (hf : Follows name (h.map Planned.action)) (hrem : ∀ p ∈ h, p.action.isRemoval = false)
    (ho : SetsOnce (h.map Planned.action)) (hrun : h.foldlM applyChange f = .ok g) :
    ∃ r, ofHistory h = .ok r ∧ r.removal = none ∧ r.foldInto f = .ok g := by
  induction h generalizing f name with
  | nil =>
    cases hrun
    exact ⟨{}, rfl, rfl, rfl⟩
  | cons p h ih =>
    obtain ⟨f1, h1, h2⟩ := foldlM_cons_eq_ok.1 hrun
    have hu' : ∀ q ∈ h, q.uid = u := fun q hq => hu q (List.mem_cons_of_mem p hq)
    obtain ⟨r, hr, hr0, hfold⟩ := ih (List.pairwise_cons.1 hs).2 hu' hf.tail
      (fun q hq => hrem q (List.mem_cons_of_mem p hq)) ho.tail h2
    have tidy := tidy_of_history hu' hr
    have hlt : ∀ q ∈ r.definitionChanges, p.order < q.order := fun q hq =>
      order_lt_of_history hs hr q (mem_toList_of_mem_definitionChanges hq)
    suffices hstep : ∃ r', Absorbs p r r' ∧ r'.removal = none ∧ r'.foldInto f = .ok g by
      obtain ⟨r', ha, hr0', hfold'⟩ := hstep
      exact ⟨r', ofHistory_cons.2 ⟨r, hr, ha⟩, hr0', hfold'⟩
    cases hp : p.action with
    | insert u i d =>
      rw [List.map_cons, hp] at hf
      exact hf.elim
    | remove u fd => simp [hp, Action.isRemoval] at hrem
    | move u fd i =>
      -- a move leaves the definition as it is, and the recorded changes too
      rw [applyChange_of_not_change (by rw [hp]; rfl)] at h1
      cases h1
      by_cases hm : r.movement = none
      · exact ⟨_, .move hp hr0 hm, hr0, hfold⟩
      · exact ⟨r, .superseded hp (.inr (Option.isSome_iff_ne_none.2 hm)), hr0, hfold⟩
    | change u fd n v =>
      by_cases hn : Text.sameName n "name"
      · exact absorbs_rename tidy hlt hr0 hp hn h1 hfold
      · exact absorbs_change tidy hlt hr0 hp hn
          (fun c hget => not_setOnce_of_recorded hr tidy ho hp hget) h1 hfold

theorem Tidy.filter_isChange {u : Uid} {r : Record} (h : r.Tidy u) :
    (inOrder r.toList).filter (fun p => p.action.isChange) = r.definitionChanges := by
  have hren : ∀ p ∈ r.removal.toList, p.action.isChange = false := by
    intro p hp
    obtain ⟨f, e⟩ := h.removal p (Option.mem_toList.1 hp)
    rw [e]
    rfl
  have hins : ∀ p ∈ r.insertion.toList, p.action.isChange = false := by
    intro p hp
    obtain ⟨i, d, e⟩ := h.insertion p (Option.mem_toList.1 hp)
    rw [e]
    rfl
  have hmov : ∀ p ∈ r.movement.toList, p.action.isChange = false := by
    intro p hp
    obtain ⟨f, i, e⟩ := h.movement p (Option.mem_toList.1 hp)
    rw [e]
    rfl
  have hchg : ∀ p ∈ r.rename.toList ++ r.properties.values, p.action.isChange := by
    intro p hp
    rcases List.mem_append.1 hp with hp | hp
    · obtain ⟨f, n, v, e, -⟩ := h.rename p (Option.mem_toList.1 hp)
      rw [e]
      rfl
    · obtain ⟨k, hk⟩ := Dict.mem_values.1 hp
      obtain ⟨f, n, v, e, -⟩ := h.properties k p hk
      rw [e]
      rfl
  have none_of {l : List Planned} (hl : ∀ p ∈ l, p.action.isChange = false) :
      l.filter (fun p => p.action.isChange) = [] := List.filter_eq_nil_iff.2 (by simpa using hl)
  rw [filter_inOrder, toList, List.append_assoc _ r.rename.toList, List.filter_append,
    List.filter_append, List.filter_append, none_of hren, none_of hins, none_of hmov,
    List.filter_eq_self.2 hchg, List.nil_append, List.nil_append, List.append_nil]
  rfl

theorem Tidy.isRename_of_rename {u : Uid} {r : Record} (h : r.Tidy u) :
    ∀ p ∈ r.rename.toList, p.action.isRename := by
  intro p hp
  obtain ⟨f, n, v, e, hn⟩ := h.rename p (Option.mem_toList.1 hp)
  rw [e]
  exact hn

theorem Tidy.isRename_of_property {u : Uid} {r : Record} (h : r.Tidy u) :
    ∀ p ∈ r.properties.values, p.action.isRename = false := by
  intro p hp
  obtain ⟨k, hk⟩ := Dict.mem_values.1 hp
  obtain ⟨f, n, v, e, -, hn⟩ := h.properties k p hk
  rw [e]
  simpa [Action.isRename] using hn

/-- An idle rename is left out, and the other changes stay. -/
theorem Tidy.definitionChanges_settled {u : Uid} {r : Record} (h : r.Tidy u)
    (hi : r.renamesIdly) :
    r.settled.definitionChanges = r.definitionChanges.filter fun p => !p.action.isRename := by
  unfold Record.settled definitionChanges
  rw [if_pos hi, filter_inOrder, List.filter_append,
    List.filter_eq_nil_iff.2 (by simpa using h.isRename_of_rename),
    List.filter_eq_self.2 (by simpa using h.isRename_of_property)]
  rfl

/-- What remains of the history of a field that is kept leads to the same definition, but for the
case of its name. -/
theorem changes_settled {u : Uid} {name : String} {r : Record} {f g : Field} (h : r.Tidy u)
    (hn : ∀ p ∈ r.toList, Text.sameName p.action.fieldName name) (hname : Text.sameName f.name name)
    (hg : r.foldInto f = .ok g) :
    ∃ g', (inOrder r.settled.toList).foldlM applyChange f = .ok g' ∧
      g'.forget .name = g.forget .name ∧ Text.sameName g'.name g.name := by
  rw [← foldlM_filter_isChange, h.settled.filter_isChange]
  by_cases hi : r.renamesIdly
  · obtain ⟨c, hc, hidle⟩ := (Option.any_eq_true _ _).1 hi
    obtain ⟨n, ht, hsame⟩ := (Option.any_eq_true _ _).1 hidle
    obtain ⟨g', hg', e, hname'⟩ := changes_without_renames rfl hg
    rw [h.definitionChanges_settled hi]
    refine ⟨g', hg', e.symm, ?_⟩
    have htarget : ∀ p ∈ r.definitionChanges, p.action.isRename → p.action.newName? = some n := by
      intro p hp hpr
      rcases mem_definitionChanges.1 hp with hp | ⟨k, hp⟩
      · rw [hc] at hp
        cases hp
        exact ht
      · obtain ⟨f, n, v, e, -, hne⟩ := h.properties k p hp
        rw [e] at hpr
        exact absurd hpr hne
    have hcname : Text.sameName c.action.fieldName name :=
      hn c (mem_toList.2 (.inr (.inr (.inl hc))))
    rw [hname']
    rw [Text.sameName_iff] at hsame hcname hname ⊢
    rcases name_after_changes htarget hg with e' | e'
    · rw [e', hsame, hcname, hname]
    · rw [e']
  · refine ⟨g, ?_, rfl, Text.sameName_refl _⟩
    unfold settled
    rw [if_neg hi]
    exact hg

end Record

end TableAlteration
