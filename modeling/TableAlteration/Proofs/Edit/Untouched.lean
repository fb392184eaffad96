import TableAlteration.Proofs.Edit.InPlace
import TableAlteration.Proofs.Field.Extended

namespace TableAlteration

/-- Whether the action sets the property, or gives it up for a type without decimal places. -/
def Action.touches (p : Property) : Action → Bool
  | .change _ _ s v => Property.ofName? s = some p ||
    (p = .visibleDecimalPlaces && Property.ofName? s = some .type &&
      v.asType.toOption.any fun t => !t.hasDecimalPlaces)
  | _ => false

theorem Action.touches_of_bare {a b : Action} (h : a.bare = b.bare) (p : Property) :
    a.touches p = b.touches p := by
  cases a <;> cases b <;> cases h <;> rfl

/-- What needs neither extended data nor a new table leaves the extended properties alone. -/
theorem Action.touches_of_requirements {a : Action} {r : Requirements} {p : Property}
    (h : a.requirements = .ok r) (hr : r.extended = false) (hphysical : r.physical = false)
    (hp : p.requirements.extended) : a.touches p = false := by
  cases a with
  | change u n s v =>
    have hclass : classify s = .ok r := h
    rw [classify_eq] at hclass
    unfold touches
    cases hs : Property.ofName? s with
    | none => simp [hs]
    | some q =>
      rw [hs] at hclass
      cases hclass
      have hq : q ≠ p := by
        intro h
        subst h
        rw [hp] at hr
        cases hr
      have htype : q ≠ .type := by
        intro h
        subst h
        cases hphysical
      simp [hs, hq, htype]
  | _ => rfl

/-- An edit that does not touch the property keeps its value. -/
theorem Record.extendedValue?_of_applyChange {f g : Field} {c : Planned} {p : Property}
    (hc : c.action.touches p = false) (h : applyChange f c = .ok g) :
    g.extendedValue? p = f.extendedValue? p := by
  rcases applyChange_eq_ok h with ⟨-, rfl⟩ | ⟨u, n, s, v, q, ha, hq, hset⟩
  · rfl
  · rw [ha, Action.touches, hq, Bool.or_eq_false_iff] at hc
    obtain ⟨hne, hclear⟩ := hc
    have hne : q ≠ p := by simpa using hne
    refine Field.extendedValue?_of_alters hne ?_ (Field.alters_of_set hset)
    intro hp hq
    subst hp
    subst hq
    obtain ⟨t, ht, e⟩ := bind_eq_ok.1 hset
    cases e
    rw [ht] at hclear
    have hplaces : t.hasDecimalPlaces := by simpa [Except.toOption] using hclear
    exact hplaces

namespace Draft

variable {t : Table} {k l : List Planned} {p : Planned} {d d' : Draft}

/-- A row after an edit is one from before, or an inserted one, or one that the edit has changed. -/
theorem mem_rows_of_apply (h : d.apply p = .ok d') {r : Row} (hr : r ∈ d'.rows) :
    r ∈ d.rows ∨ r.origin = none ∨ ∃ q ∈ d.rows, (q.uid = none ∨ q.uid = some p.uid) ∧
      r.uid = some p.uid ∧ r.origin = q.origin ∧ Record.applyChange q.field p = .ok r.field := by
  -- the row that is found is the field's own or not bound yet
  have hfound : ∀ {i q}, d.resolve p.uid p.action.fieldName = .ok (i, q) →
      ∃ x ∈ d.rows, (x.uid = none ∨ x.uid = some p.uid) ∧ q = { x with uid := some p.uid } := by
    intro i q hq
    obtain ⟨x, hx, e, hu⟩ := resolve_eq_ok hq
    exact ⟨x, List.mem_of_getElem? hx, hu.symm.imp_left fun hu => hu.2.1, e⟩
  cases apply_eq_ok.1 h with
  | change ha hq hf =>
    obtain ⟨x, hx, hu, rfl⟩ := hfound hq
    rcases List.mem_or_eq_of_mem_set hr with hr | rfl
    · exact .inl hr
    · refine .inr (.inr ⟨x, hx, hu, rfl, rfl, ?_⟩)
      rw [Record.applyChange_of_change ha]
      exact hf
  | remove ha hq => exact .inl (List.mem_of_mem_eraseIdx hr)
  | insert ha =>
    rcases (List.mem_insertIdx (Nat.min_le_right ..)).1 hr with rfl | hr
    · exact .inr (.inl rfl)
    · exact .inl hr
  | move ha hq =>
    obtain ⟨x, hx, hu, rfl⟩ := hfound hq
    rcases List.mem_or_eq_of_mem_set ((moveWithin_perm ..).mem_iff.1 hr) with hr | rfl
    · exact .inl hr
    · exact .inr (.inr ⟨x, hx, hu, rfl, rfl, Record.applyChange_of_not_change (by rw [ha]; rfl)⟩)

section Keeps

variable {α : Type} {V : Field → α} {s : Action → Bool}

/-- The rows from the table have `V` as before, but for those of which an edit in `l` touches it. -/
def Keeps (V : Field → α) (s : Action → Bool) (t : Table) (l : List Planned) (d : Draft) : Prop :=
  ∀ r ∈ d.rows, ∀ o, r.origin = some o → ∃ f, t.fields[o.position]? = some f ∧ f.name = o.column ∧
    ((∀ p ∈ l, r.uid = some p.uid → s p.action = false) → V r.field = V f)

theorem keeps_of (V : Field → α) (s : Action → Bool) (t : Table) :
    Keeps V s t [] (Draft.of t) := by
  intro r hr o ho
  obtain ⟨⟨f, i⟩, hi, rfl⟩ := List.mem_map.1 hr
  cases ho
  exact ⟨f, List.mk_mem_zipIdx_iff_getElem?.1 hi, rfl, fun _ => rfl⟩

theorem Keeps.apply (hs : ∀ p f g, s p.action = false → Record.applyChange f p = .ok g → V g = V f)
    (h : Keeps V s t k d) (hp : d.apply p = .ok d') : Keeps V s t (k ++ [p]) d' := by
  intro r hr o ho
  rcases mem_rows_of_apply hp hr with hr | hnone | ⟨q, hq, hbound, hu, horigin, hchange⟩
  · obtain ⟨f, hf, hname, hval⟩ := h r hr o ho
    exact ⟨f, hf, hname, fun hx => hval fun e he => hx e (List.mem_append_left _ he)⟩
  · rw [hnone] at ho
    cases ho
  · obtain ⟨f, hf, hname, hval⟩ := h q hq o (horigin ▸ ho)
    refine ⟨f, hf, hname, fun hx => ?_⟩
    have hp := hx p (by simp) hu
    rw [hs p q.field r.field hp hchange]
    refine hval fun e he hqe => hx e (List.mem_append_left _ he) ?_
    rcases hbound with hn | hs
    · rw [hn] at hqe
      cases hqe
    · rw [hu, ← hs, hqe]

theorem Keeps.applyAll
    (hs : ∀ p f g, s p.action = false → Record.applyChange f p = .ok g → V g = V f)
    (h : Keeps V s t k d) (hl : d.applyAll l = .ok d') : Keeps V s t (k ++ l) d' := by
  induction l generalizing k d with
  | nil =>
    cases hl
    rwa [List.append_nil]
  | cons p l ih =>
    obtain ⟨d1, h1, hl⟩ := foldlM_cons_eq_ok.1 hl
    have hassoc : k ++ p :: l = k ++ [p] ++ l := by simp
    rw [hassoc]
    exact ih (h.apply hs h1) hl

end Keeps

/-- The rows from the table have the values of before, but for what their edits in `l` touch. -/
def KeepsUntouched (t : Table) (l : List Planned) (d : Draft) : Prop :=
  ∀ r ∈ d.rows, ∀ o, r.origin = some o → ∃ f, t.fields[o.position]? = some f ∧ f.name = o.column ∧
    ∀ x, (∀ p ∈ l, r.uid = some p.uid → p.action.touches x = false) →
      r.field.extendedValue? x = f.extendedValue? x

theorem keepsUntouched_iff : KeepsUntouched t l d ↔
    ∀ x, Keeps (·.extendedValue? x) (·.touches x) t l d := by
  constructor
  · intro h x r hr o ho
    obtain ⟨f, hf, hname, hval⟩ := h r hr o ho
    exact ⟨f, hf, hname, hval x⟩
  · intro h r hr o ho
    obtain ⟨f, hf, hname, -⟩ := h .name r hr o ho
    refine ⟨f, hf, hname, fun x => ?_⟩
    obtain ⟨f', hf', -, hval⟩ := h x r hr o ho
    rw [hf] at hf'
    cases hf'
    exact hval

theorem keepsUntouched_of (t : Table) : KeepsUntouched t [] (Draft.of t) :=
  keepsUntouched_iff.2 fun _ => keeps_of _ _ t

theorem KeepsUntouched.applyAll (h : KeepsUntouched t k d) (hl : d.applyAll l = .ok d') :
    KeepsUntouched t (k ++ l) d' :=
  keepsUntouched_iff.2 fun x => (keepsUntouched_iff.1 h x).applyAll
    (fun _ _ _ hc hchange => Record.extendedValue?_of_applyChange hc hchange) hl

end Draft

end TableAlteration
