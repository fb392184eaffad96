import TableAlteration.Proofs.Edit.Drafts
import TableAlteration.Proofs.Edit.Independence
import TableAlteration.Proofs.Edit.Plans
import TableAlteration.Run.Alteration

namespace TableAlteration

namespace Field

/-- Only integers are numbered by the database, and only floating point numbers are displayed with
a number of decimal places. -/
structure WellTyped (f : Field) : Prop where
  autoIncrement : f.constraints.autoIncrement → f.type.allowsAutoIncrement
  decimalPlaces : f.decimalPlaces.isSome → f.type.hasDecimalPlaces

instance (f : Field) : Decidable f.WellTyped :=
  decidable_of_iff
    ((f.constraints.autoIncrement → f.type.allowsAutoIncrement) ∧
      (f.decimalPlaces.isSome → f.type.hasDecimalPlaces))
    ⟨fun h => ⟨h.1, h.2⟩, fun h => ⟨h.1, h.2⟩⟩

/-- No setter breaks the property. -/
def Lasting (P : Field → Prop) : Prop :=
  ∀ f g v p, P f → f.set v p = .ok g → P g

theorem lasting_wellTyped : Lasting WellTyped := by
  intro f g v p hf hg
  have halters := alters_of_set hg
  cases p with
  | type =>
    -- what the new type does not support is given up
    obtain ⟨t, rfl⟩ := halters
    constructor
    · intro h
      exact (Bool.and_eq_true_iff.1 h).2
    · intro h
      simp only [withType] at h ⊢
      split at h
      · assumption
      · cases h
  | autoIncrement =>
    obtain ⟨on, hon, rfl⟩ := halters
    exact ⟨hon, hf.decimalPlaces⟩
  | visibleDecimalPlaces =>
    obtain ⟨ht, n, rfl⟩ := halters
    exact ⟨hf.autoIncrement, fun _ => ht⟩
  | lookup l =>
    obtain ⟨e, -, rfl⟩ := halters
    exact ⟨hf.autoIncrement, hf.decimalPlaces⟩
  | _ =>
    obtain ⟨x, rfl⟩ := halters
    exact ⟨hf.autoIncrement, hf.decimalPlaces⟩

end Field

section Lasting

variable {P : Field → Prop}

theorem Record.applyChange_lasting (hP : Field.Lasting P) {f g : Field} {p : Planned} (hf : P f)
    (h : applyChange f p = .ok g) : P g := by
  rcases applyChange_eq_ok h with ⟨-, rfl⟩ | ⟨u, n, s, v, q, -, -, hset⟩
  · exact hf
  · exact hP f g v q hf hset

theorem Record.changes_lasting (hP : Field.Lasting P) {f g : Field} {l : List Planned} (hf : P f)
    (h : l.foldlM applyChange f = .ok g) : P g := by
  induction l generalizing f with
  | nil =>
    cases h
    exact hf
  | cons p l ih =>
    obtain ⟨f1, h1, h2⟩ := foldlM_cons_eq_ok.1 h
    exact ih (applyChange_lasting hP hf h1) h2

/-- What the edit inserts, if anything, has the property. -/
def Action.Brings (P : Field → Prop) : Action → Prop
  | .insert _ _ d => P d
  | _ => True

/-- An insertion that takes later changes into itself still brings what it should. -/
theorem Record.Absorbs.brings (hP : Field.Lasting P) {p : Planned} {r r' : Record}
    (h : Absorbs p r r') (hp : p.action.Brings P)
    (hr : ∀ q, r.insertion = some q → q.action.Brings P) :
    ∀ q, r'.insertion = some q → q.action.Brings P := by
  cases h with
  | cancel =>
    intro q hq
    cases hq
  | insert ha hrem hfold =>
    intro q hq
    cases hq
    rw [ha] at hp
    exact changes_lasting hP hp hfold
  | _ => exact hr

theorem Record.brings_of_history (hP : Field.Lasting P) {h : List Planned} {r : Record}
    (hh : ∀ p ∈ h, p.action.Brings P) (hr : ofHistory h = .ok r) :
    ∀ q, r.insertion = some q → q.action.Brings P := by
  induction h generalizing r with
  | nil =>
    cases hr
    intro q hq
    cases hq
  | cons p h ih =>
    obtain ⟨s, hs, ha⟩ := ofHistory_cons.1 hr
    exact ha.brings hP (hh p List.mem_cons_self)
      (ih (fun q hq => hh q (List.mem_cons_of_mem p hq)) hs)

/-- Nothing but the insertion of a record inserts anything. -/
theorem Record.Tidy.brings {u : Uid} {r : Record} (h : r.Tidy u)
    (hr : ∀ q, r.insertion = some q → q.action.Brings P) : ∀ q ∈ r.toList, q.action.Brings P := by
  intro q hq
  rcases mem_toList.1 hq with hq | hq | hq | ⟨k, hq⟩ | hq
  · obtain ⟨f, e⟩ := h.removal q hq
    rw [e]
    trivial
  · exact hr q hq
  · obtain ⟨f, n, v, e, -⟩ := h.rename q hq
    rw [e]
    trivial
  · obtain ⟨f, n, v, e, -⟩ := h.properties k q hq
    rw [e]
    trivial
  · obtain ⟨f, i, e⟩ := h.movement q hq
    rw [e]
    trivial

theorem Reduction.brings_of_mem (hP : Field.Lasting P) {l : List Planned} {r : Reduction}
    (hl : ∀ p ∈ l, p.action.Brings P) (h : Reduction.of l = .ok r) :
    ∀ q ∈ r.ordered, q.action.Brings P := by
  intro q hq
  obtain ⟨s, hs, e⟩ := editsOf_ordered h q.uid
  have hq' : q ∈ inOrder s.settled.toList := by
    rw [← e]
    exact mem_editsOf.2 ⟨hq, rfl⟩
  have hmem : q ∈ s.toList := Record.mem_of_mem_settled (mem_inOrder.1 hq')
  have hedits : ∀ p ∈ editsOf q.uid (inOrder l), p.action.Brings P := fun p hp =>
    hl p (mem_inOrder.1 (mem_editsOf.1 hp).1)
  have tidy := Record.tidy_of_history (fun p hp => (mem_editsOf.1 hp).2) hs
  exact tidy.brings (Record.brings_of_history hP hedits hs) q hmem

namespace Draft

variable {d d' : Draft} {p : Planned} {l : List Planned}

theorem lasting_of_apply (hP : Field.Lasting P) (hp : p.action.Brings P)
    (hd : ∀ r ∈ d.rows, P r.field) (h : d.apply p = .ok d') : ∀ r ∈ d'.rows, P r.field := by
  cases apply_eq_ok.1 h with
  | @change u name n v i r f ha hr hf =>
    obtain ⟨q, hq, rfl, -⟩ := resolve_eq_ok hr
    obtain ⟨s, -, hset⟩ := Field.setNamed_eq_ok.1 hf
    intro x hx
    rcases List.mem_or_eq_of_mem_set hx with hx | rfl
    · exact hd x hx
    · exact hP q.field f v s (hd q (List.mem_of_getElem? hq)) hset
  | remove ha hr =>
    intro x hx
    exact hd x (List.mem_of_mem_eraseIdx hx)
  | insert ha =>
    rw [ha] at hp
    intro x hx
    rcases List.eq_or_mem_of_mem_insertIdx hx with rfl | hx
    · exact hp
    · exact hd x hx
  | @move u name j i r ha hr =>
    obtain ⟨q, hq, rfl, -⟩ := resolve_eq_ok hr
    intro x hx
    rcases List.mem_or_eq_of_mem_set ((moveWithin_perm ..).mem_iff.1 hx) with hx | rfl
    · exact hd x hx
    · exact hd q (List.mem_of_getElem? hq)

theorem lasting_of_applyAll (hP : Field.Lasting P) (hl : ∀ p ∈ l, p.action.Brings P)
    (hd : ∀ r ∈ d.rows, P r.field) (h : d.applyAll l = .ok d') : ∀ r ∈ d'.rows, P r.field := by
  induction l generalizing d with
  | nil =>
    cases h
    exact hd
  | cons p l ih =>
    obtain ⟨d1, h1, h2⟩ := foldlM_cons_eq_ok.1 h
    exact ih (fun q hq => hl q (List.mem_cons_of_mem p hq))
      (lasting_of_apply hP (hl p List.mem_cons_self) hd h1) h2

end Draft

variable {t : Table} {actions : List Action} {l : List Planned} {r : Reduction} {d : Draft}

/-- The edited table has what its fields had and what was inserted with it. -/
theorem Alteration.lasting_of_edited (hP : Field.Lasting P) (hl : planAll actions = .ok l)
    (hr : Reduction.of l = .ok r) (hd : edited t r.ordered = .ok d) (ht : ∀ f ∈ t.fields, P f)
    (ha : ∀ a ∈ actions, a.Brings P) : ∀ f ∈ d.table.fields, P f := by
  have hplanned : ∀ p ∈ l, p.action.Brings P := by
    intro p hp
    refine ha p.action ?_
    rw [← planAll_actions hl]
    exact List.mem_map_of_mem hp
  have hrows : ∀ x ∈ (Draft.of t).rows, P x.field := by
    intro x hx
    refine ht x.field ?_
    rw [← Draft.fields_of t]
    exact List.mem_map_of_mem hx
  obtain ⟨d1, h1, h2⟩ := bind_eq_ok.1 hd
  obtain ⟨-, rfl⟩ := Draft.finish_eq_ok.1 h2
  have hd1 := Draft.lasting_of_applyAll hP (Reduction.brings_of_mem hP hplanned hr) hrows h1
  intro f hf
  obtain ⟨x, hx, rfl⟩ := List.mem_map.1 hf
  exact hd1 x hx

/-- Whatever is changed, in whatever order, no field is left with settings that its type does not
support. -/
theorem Alteration.edited_wellTyped (hl : planAll actions = .ok l) (hr : Reduction.of l = .ok r)
    (hd : edited t r.ordered = .ok d) (ht : ∀ f ∈ t.fields, f.WellTyped)
    (ha : ∀ u i f, Action.insert u i f ∈ actions → f.WellTyped) :
    ∀ f ∈ d.table.fields, f.WellTyped := by
  refine lasting_of_edited Field.lasting_wellTyped hl hr hd ht fun a hmem => ?_
  cases a with
  | insert u i f => exact ha u i f hmem
  | _ => trivial

end Lasting

def retyping : List Action :=
  [.insert ⟨1⟩ 0 (Field.withAutoIncrement { name := "n", type := .integer }),
    .change ⟨1⟩ "n" "Type" (.text "double"), .change ⟨1⟩ "n" "VISIBLEDECIMALPLACES" (.int 2),
    .change ⟨0⟩ "id" "autoincrement" (.bool true), .change ⟨0⟩ "id" "type" (.text "Text")]

/-- A numbered field becomes a text, and what is inserted as an integer becomes a number with
decimal places. -/
theorem Alteration.edited_wellTyped_of_new_types :
    ∃ l r d, planAll retyping = .ok l ∧ Reduction.of l = .ok r ∧
      edited ⟨"t", [Field.withAutoIncrement { name := "id", type := .integer }], []⟩ r.ordered =
        .ok d ∧
      (∀ f ∈ d.table.fields, f.WellTyped) ∧
      d.table.fields.map (fun f => (f.type, f.constraints.autoIncrement, f.decimalPlaces)) =
        [(.double, false, some 2), (.text, false, none)] := by
  obtain ⟨l, r, hl, hr, hdone⟩ : ∃ l r, planAll retyping = .ok l ∧ Reduction.of l = .ok r ∧
      ∃ d, edited ⟨"t", [Field.withAutoIncrement { name := "id", type := .integer }], []⟩
          r.ordered = .ok d ∧
        d.table.fields.map (fun f => (f.type, f.constraints.autoIncrement, f.decimalPlaces)) =
          [(.double, false, some 2), (.text, false, none)] :=
    ⟨_, _, rfl, rfl, _, rfl, rfl⟩
  obtain ⟨d, hd, hfields⟩ := hdone
  refine ⟨l, r, d, hl, hr, hd, edited_wellTyped hl hr hd (by decide) ?_, hfields⟩
  intro u i f hf
  obtain ⟨-, -, rfl⟩ : u = ⟨1⟩ ∧ i = 0 ∧
      f = Field.withAutoIncrement { name := "n", type := .integer } := by
    simpa [retyping] using hf
  decide

end TableAlteration
