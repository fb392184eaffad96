import TableAlteration.Proofs.Edit.FieldInvariants
import TableAlteration.Proofs.Field.Ownership

namespace TableAlteration

namespace Field

/-- A primary key cannot be null. -/
def KeyNotNull (f : Field) : Prop := f.constraints.primaryKey → f.constraints.notNull

instance (f : Field) : Decidable f.KeyNotNull := inferInstanceAs (Decidable (_ → _))

/-- What says nothing of null changes neither attribute. -/
theorem keyAttributes_of_set {f g : Field} {v : Value} {p : Property} (hn : p ≠ .notNull)
    (hk : p ≠ .primaryKey) (h : f.set v p = .ok g) :
    g.constraints.primaryKey = f.constraints.primaryKey ∧
      g.constraints.notNull = f.constraints.notNull := by
  have hreach : Part.primaryKey ∉ p.reach ∧ Part.notNull ∉ p.reach := by
    cases p <;> simp_all [Property.reach]
  have hkey : Property.part .primaryKey ≠ p.part := fun e => hk (Property.part_injective e).symm
  have hnull : Property.part .notNull ≠ p.part := fun e => hn (Property.part_injective e).symm
  exact ⟨part_of_set h hkey hreach.1, part_of_set h hnull hreach.2⟩

end Field

namespace Action

/-- It sets `notNull`, or `primaryKey`, which forbids null. -/
def speaksOfNull : Action → Bool
  | .change _ _ s _ =>
    Property.ofName? s = some .notNull || Property.ofName? s = some .primaryKey
  | _ => false

/-- It takes `notNull` back. -/
def allowsNull : Action → Bool
  | .change _ _ s v => Property.ofName? s = some .notNull && v.flag? = some false
  | _ => false

theorem allowsNull_of_quiet {a : Action} (h : a.speaksOfNull = false) : a.allowsNull = false := by
  cases a with
  | change u n s v =>
    rw [speaksOfNull, Bool.or_eq_false_iff] at h
    rw [allowsNull, h.1, Bool.false_and]
  | _ => rfl

end Action

/-- Nothing more is said of null, at least not before the field is inserted anew. -/
def silentOnNull : List Action → Bool
  | [] => true
  | a :: l => a.isInsertion || !a.speaksOfNull && silentOnNull l

/-- The last word of the edits on null, or their last one before the field is inserted anew, is
that it is allowed. -/
def endsNullable : List Action → Bool
  | [] => false
  | a :: l => a.allowsNull && silentOnNull l || endsNullable l

/-- The lists have the same word on null. -/
structure SameWord (k l : List Action) : Prop where
  silent : silentOnNull k = silentOnNull l
  ends : endsNullable k = endsNullable l

section Words

variable {a : Action} {k l : List Action}

theorem SameWord.refl (l : List Action) : SameWord l l := ⟨rfl, rfl⟩

theorem SameWord.symm (h : SameWord k l) : SameWord l k := ⟨h.silent.symm, h.ends.symm⟩

theorem SameWord.trans {m : List Action} (h : SameWord k l) (h' : SameWord l m) : SameWord k m :=
  ⟨h.silent.trans h'.silent, h.ends.trans h'.ends⟩

theorem SameWord.cons (h : SameWord k l) (a : Action) : SameWord (a :: k) (a :: l) := by
  constructor
  · rw [silentOnNull, silentOnNull, h.silent]
  · rw [endsNullable, endsNullable, h.silent, h.ends]

theorem endsNullable_cons_of_quiet (h : a.speaksOfNull = false) :
    endsNullable (a :: l) = endsNullable l := by
  rw [endsNullable, Action.allowsNull_of_quiet h]
  rfl

theorem sameWord_of_quiet (hi : a.isInsertion = false) (h : a.speaksOfNull = false) (l) :
    SameWord (a :: l) l := by
  constructor
  · rw [silentOnNull, hi, h]
    rfl
  · exact endsNullable_cons_of_quiet h

/-- If more is said of null anyway, the edit before does not matter. -/
theorem sameWord_of_spoken (hi : a.isInsertion = false) (h : silentOnNull l = false) :
    SameWord (a :: l) l := by
  constructor
  · rw [silentOnNull, hi, h]
    exact Bool.and_false _
  · rw [endsNullable, h, Bool.and_false, Bool.false_or]

theorem silentOnNull_cons_of_insertion (h : a.isInsertion) : silentOnNull (a :: l) = true := by
  rw [silentOnNull, h]
  rfl

theorem quiet_of_not_change (h : a.isChange = false) : a.speaksOfNull = false := by
  cases a with
  | change => cases h
  | _ => rfl

theorem quiet_of_rename (h : a.isRename) : a.speaksOfNull = false := by
  obtain ⟨u, n, s, v, rfl, hs⟩ := Record.isRename_iff.1 h
  rw [Action.speaksOfNull, hs]
  rfl

theorem silentOnNull_of_mem (hi : ∀ b ∈ l, b.isInsertion = false) (ha : a ∈ l)
    (h : a.speaksOfNull) : silentOnNull l = false := by
  induction l with
  | nil => cases ha
  | cons b l ih =>
    rw [silentOnNull, hi b List.mem_cons_self, Bool.false_or, Bool.and_eq_false_iff]
    rcases List.mem_cons.1 ha with rfl | ha
    · left
      rw [h]
      rfl
    · exact .inr (ih (fun c hc => hi c (List.mem_cons_of_mem b hc)) ha)

/-- What neither speaks of null nor inserts the field can be left out. -/
theorem sameWord_filter {s : Action → Bool}
    (h : ∀ b ∈ l, s b = false → b.isInsertion = false ∧ b.speaksOfNull = false) :
    SameWord (l.filter s) l := by
  induction l with
  | nil => exact .refl []
  | cons b l ih =>
    have hrest := ih fun c hc => h c (List.mem_cons_of_mem b hc)
    rw [List.filter_cons]
    cases hs : s b with
    | true => exact hrest.cons b
    | false =>
      obtain ⟨hi, hquiet⟩ := h b List.mem_cons_self hs
      exact hrest.trans (sameWord_of_quiet hi hquiet l).symm

/-- The names by which edits call their field do not matter. -/
theorem sameWord_withFieldName (l : List Action) (n : String) :
    SameWord (l.map (Action.withFieldName n)) l := by
  induction l with
  | nil => exact .refl []
  | cons a l ih =>
    have hone : SameWord (a.withFieldName n :: l) (a :: l) := by cases a <;> exact ⟨rfl, rfl⟩
    exact (ih.cons _).trans hone

end Words

section Runs

variable {f g : Field} {p : Planned} {l : List Planned}

theorem keyAttributes_of_quiet (hp : p.action.speaksOfNull = false)
    (h : Record.applyChange f p = .ok g) :
    g.constraints.primaryKey = f.constraints.primaryKey ∧
      g.constraints.notNull = f.constraints.notNull := by
  rcases Record.applyChange_eq_ok h with ⟨-, rfl⟩ | ⟨u, n, s, v, q, ha, hq, hset⟩
  · exact ⟨rfl, rfl⟩
  · rw [ha, Action.speaksOfNull, hq, Bool.or_eq_false_iff] at hp
    exact Field.keyAttributes_of_set (by simpa using hp.1) (by simpa using hp.2) hset

/-- The word of a change on null is kept: null is allowed or, for a primary key, forbidden. -/
theorem nullability_of_spoken (hp : p.action.speaksOfNull) (h : Record.applyChange f p = .ok g) :
    if p.action.allowsNull then g.constraints.notNull = false else g.KeyNotNull := by
  rcases Record.applyChange_eq_ok h with ⟨hno, -⟩ | ⟨u, n, s, v, q, ha, hq, hset⟩
  · rw [quiet_of_not_change hno] at hp
    cases hp
  · rw [ha, Action.speaksOfNull, hq, Bool.or_eq_true_iff] at hp
    rw [ha, Action.allowsNull, hq]
    rcases hp with hp | hp
    · obtain rfl : q = .notNull := by simpa using hp
      obtain ⟨on, hv, e⟩ := bind_eq_ok.1 hset
      cases e
      rw [Value.flag?_of_asFlag hv]
      cases on with
      | false => rfl
      | true => exact fun _ => rfl
    · obtain rfl : q = .primaryKey := by simpa using hp
      obtain ⟨on, hv, e⟩ := bind_eq_ok.1 hset
      cases e
      intro hkey
      exact Bool.or_eq_true_iff.2 (.inl hkey)

theorem keyAttributes_of_silent (hi : ∀ p ∈ l, p.action.isInsertion = false)
    (hl : silentOnNull (l.map Planned.action)) (h : l.foldlM Record.applyChange f = .ok g) :
    g.constraints.primaryKey = f.constraints.primaryKey ∧
      g.constraints.notNull = f.constraints.notNull := by
  induction l generalizing f with
  | nil =>
    cases h
    exact ⟨rfl, rfl⟩
  | cons p l ih =>
    obtain ⟨f1, h1, h⟩ := foldlM_cons_eq_ok.1 h
    rw [List.map_cons, silentOnNull, hi p List.mem_cons_self, Bool.false_or,
      Bool.and_eq_true_iff] at hl
    obtain ⟨hkey, hnull⟩ := ih (fun q hq => hi q (List.mem_cons_of_mem p hq)) hl.2 h
    obtain ⟨hkey1, hnull1⟩ := keyAttributes_of_quiet (by simpa using hl.1) h1
    exact ⟨hkey.trans hkey1, hnull.trans hnull1⟩

/-- Whatever a definition was, it may be null after changes that end so. -/
theorem nullable_of_changes (hi : ∀ p ∈ l, p.action.isInsertion = false)
    (hl : endsNullable (l.map Planned.action)) (h : l.foldlM Record.applyChange f = .ok g) :
    g.constraints.notNull = false := by
  induction l generalizing f with
  | nil => cases hl
  | cons p l ih =>
    obtain ⟨f1, h1, h⟩ := foldlM_cons_eq_ok.1 h
    have hi' : ∀ q ∈ l, q.action.isInsertion = false := fun q hq =>
      hi q (List.mem_cons_of_mem p hq)
    rw [List.map_cons, endsNullable, Bool.or_eq_true_iff, Bool.and_eq_true_iff] at hl
    rcases hl with ⟨hallows, hsilent⟩ | hl
    · have hspeaks : p.action.speaksOfNull := by
        by_contra hquiet
        rw [Action.allowsNull_of_quiet (by simpa using hquiet)] at hallows
        cases hallows
      have hword := nullability_of_spoken hspeaks h1
      rw [if_pos hallows] at hword
      rw [(keyAttributes_of_silent hi' hsilent h).2, hword]
    · exact ih hi' hl h

/-- And a primary key may not be null after changes that speak of null and do not end so. -/
theorem keyNotNull_of_spoken (hi : ∀ p ∈ l, p.action.isInsertion = false)
    (hl : silentOnNull (l.map Planned.action) = false)
    (hends : endsNullable (l.map Planned.action) = false)
    (h : l.foldlM Record.applyChange f = .ok g) : g.KeyNotNull := by
  induction l generalizing f with
  | nil => cases hl
  | cons p l ih =>
    obtain ⟨f1, h1, h⟩ := foldlM_cons_eq_ok.1 h
    have hi' : ∀ q ∈ l, q.action.isInsertion = false := fun q hq =>
      hi q (List.mem_cons_of_mem p hq)
    rw [List.map_cons, endsNullable, Bool.or_eq_false_iff] at hends
    cases hsilent : silentOnNull (l.map Planned.action) with
    | false => exact ih hi' hsilent hends.2 h
    | true =>
      rw [List.map_cons, silentOnNull, hsilent, hi p List.mem_cons_self] at hl
      have hword := nullability_of_spoken (by simpa using hl) h1
      rw [hsilent, Bool.and_true] at hends
      rw [if_neg (by simp [hends.1])] at hword
      obtain ⟨hkey, hnull⟩ := keyAttributes_of_silent hi' hsilent h
      intro hk
      rw [hnull]
      exact hword (by rwa [← hkey])

theorem keyNotNull_of_changes (hi : ∀ p ∈ l, p.action.isInsertion = false)
    (hl : endsNullable (l.map Planned.action) = false) (hf : f.KeyNotNull)
    (h : l.foldlM Record.applyChange f = .ok g) : g.KeyNotNull := by
  cases hsilent : silentOnNull (l.map Planned.action) with
  | false => exact keyNotNull_of_spoken hi hsilent hl h
  | true =>
    obtain ⟨hkey, hnull⟩ := keyAttributes_of_silent hi hsilent h
    intro hk
    rw [hnull]
    exact hf (by rwa [← hkey])

end Runs

end TableAlteration
