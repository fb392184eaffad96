import TableAlteration.Proofs.Edit.Drafts
import TableAlteration.Proofs.Edit.Independence
import TableAlteration.Proofs.Edit.Plans

namespace TableAlteration

theorem Action.requirements_bare (a : Action) : a.bare.requirements = a.requirements := by
  cases a <;> rfl

theorem Requirements.all_physical (l : List Requirements) :
    (Requirements.all l).physical = l.any (·.physical) := by
  induction l with
  | nil => rfl
  | cons r l ih =>
    rw [List.any_cons, ← ih]
    rfl

theorem Requirements.all_extended (l : List Requirements) :
    (Requirements.all l).extended = l.any (·.extended) := by
  induction l with
  | nil => rfl
  | cons r l ih =>
    rw [List.any_cons, ← ih]
    rfl

theorem Requirements.join_eq_none {r s : Requirements} (h : r.join s = none) :
    r = none ∧ s = none := by
  obtain ⟨a, b, c, d⟩ := r
  obtain ⟨a', b', c', d'⟩ := s
  simpa [join, none, and_assoc, and_left_comm] using h

theorem Requirements.eq_none_of_all {l : List Requirements} (h : Requirements.all l = none) :
    ∀ r ∈ l, r = none := by
  induction l with
  | nil => simp
  | cons s l ih =>
    obtain ⟨hs, hl⟩ := join_eq_none h
    intro r hr
    rcases List.mem_cons.1 hr with rfl | hr
    · exact hs
    · exact ih hl r hr

namespace Strategy

variable {r : Requirements}

theorem eq_none_of_idle (h : for? r = none) : r = Requirements.none := by
  unfold for? at h
  split at h
  · rename_i he
    exact of_decide_eq_true he
  · split at h <;> cases h

theorem physical_of_inPlace (h : for? r = some .inPlace) : r.physical = false := by
  unfold for? at h
  split at h
  · cases h
  · split at h
    · cases h
    · rename_i hp
      simpa using hp

theorem physical_of_rebuild (h : for? r = some .rebuild) : r.physical = true := by
  unfold for? at h
  split at h
  · cases h
  · split at h
    · assumption
    · cases h

end Strategy

/-- The remaining edits need what they needed as submitted. -/
theorem Reduction.requirements_of_mem {actions : List Action} {l : List Planned} {r : Reduction}
    (hp : planAll actions = .ok l) (hr : Reduction.of l = .ok r) :
    ∀ q ∈ r.ordered, q.action.requirements = .ok q.requirements := by
  intro q hq
  obtain ⟨p, hpl, e⟩ := bare_of_mem_ordered hr hq
  have ha : q.action.bare = p.action.bare := congrArg Planned.action e
  have hreq : q.requirements = p.requirements := by
    have h' : q.bare.requirements = p.bare.requirements := by rw [e]
    exact h'
  rw [← Action.requirements_bare, ha, Action.requirements_bare, hreq]
  exact planFrom_requirements hp p hpl

theorem Action.requirements_ne_none {a : Action} {r : Requirements} (h : a.requirements = .ok r) :
    r ≠ Requirements.none := by
  cases a with
  | change u n s v =>
    have hclass : classify s = .ok r := h
    rw [classify_eq] at hclass
    split at hclass
    · rename_i p hp
      cases hclass
      intro e
      cases p <;> cases e
    · cases hclass
  | _ =>
    cases h
    decide

/-- No insertion, no removal and no rename. -/
def Action.KeepsNames (a : Action) : Prop :=
  a.isInsertion = false ∧ a.isRemoval = false ∧ a.isRename = false

theorem Action.keepsNames_of_requirements {a : Action} {r : Requirements}
    (h : a.requirements = .ok r) (hr : r.physical = false) : a.KeepsNames := by
  cases a with
  | insert | remove =>
    cases h
    cases hr
  | move => exact ⟨rfl, rfl, rfl⟩
  | change u f n v =>
    refine ⟨rfl, rfl, ?_⟩
    by_contra hne
    have hname : Property.ofName? n = some .name :=
      Property.ofName?_eq_name_iff.2 (by simpa [isRename] using hne)
    have hclass : classify n = .ok r := h
    rw [classify_eq, hname] at hclass
    cases hclass
    cases hr

namespace Reduction

variable {actions : List Action} {l : List Planned} {r : Reduction} {q : Planned}

theorem requirements_mem (hq : q ∈ r.ordered) :
    q.requirements ∈ r.toList.map (·.requirements) :=
  List.mem_map_of_mem (mem_inOrder.1 hq)

theorem any_ordered (r : Reduction) (f : Planned → Bool) : r.ordered.any f = r.toList.any f :=
  (inOrder_perm r.toList).any_eq

theorem physical_eq (r : Reduction) :
    r.requirements.physical = r.ordered.any (·.requirements.physical) := by
  rw [requirements, Requirements.all_physical, List.any_map, any_ordered]
  rfl

theorem extended_eq (r : Reduction) :
    r.requirements.extended = r.ordered.any (·.requirements.extended) := by
  rw [requirements, Requirements.all_extended, List.any_map, any_ordered]
  rfl

theorem physical_of_mem (h : r.requirements.physical = false) (hq : q ∈ r.ordered) :
    q.requirements.physical = false := by
  rw [physical_eq, List.any_eq_false] at h
  simpa using h q hq

theorem extended_of_mem (h : r.requirements.extended = false) (hq : q ∈ r.ordered) :
    q.requirements.extended = false := by
  rw [extended_eq, List.any_eq_false] at h
  simpa using h q hq

theorem keepsNames (hp : planAll actions = .ok l) (hr : Reduction.of l = .ok r)
    (h : r.requirements.physical = false) : ∀ q ∈ r.ordered, q.action.KeepsNames := fun q hq =>
  Action.keepsNames_of_requirements (requirements_of_mem hp hr q hq) (physical_of_mem h hq)

/-- Where nothing is needed no edits remain. -/
theorem ordered_eq_nil (hp : planAll actions = .ok l) (hr : Reduction.of l = .ok r)
    (h : r.requirements = Requirements.none) : r.ordered = [] := by
  refine List.eq_nil_iff_forall_not_mem.2 fun q hq => ?_
  have hmem := requirements_mem hq
  unfold requirements at h
  exact Action.requirements_ne_none (requirements_of_mem hp hr q hq)
    (Requirements.eq_none_of_all h _ hmem)

end Reduction

/-- What is seen of a row's field, and the column it comes from. -/
def Row.view {α : Type} (V : Field → α) (r : Row) : α × Option Origin := (V r.field, r.origin)

/-- The name of a row's field and the column it comes from. -/
def Row.tag (r : Row) : String × Option Origin := (r.field.name, r.origin)

namespace Draft

section Views

variable {α : Type} {V : Field → α} {t : Table} {d d' : Draft} {p : Planned} {l : List Planned}

/-- As far as their fields are seen, the rows of `d` are those of `d'`, which may have been
moved. -/
structure SameRows (V : Field → α) (d d' : Draft) : Prop where
  name : d'.name = d.name
  perm : (d'.rows.map (Row.view V)).Perm (d.rows.map (Row.view V))
  still : d'.moved = false →
    d.moved = false ∧ d'.rows.map (Row.view V) = d.rows.map (Row.view V)

theorem SameRows.refl (d : Draft) : SameRows V d d := ⟨rfl, .refl _, fun h => ⟨h, rfl⟩⟩

theorem SameRows.trans {a b c : Draft} (h : SameRows V a b) (k : SameRows V b c) :
    SameRows V a c := by
  refine ⟨k.name.trans h.name, k.perm.trans h.perm, fun hc => ?_⟩
  obtain ⟨hb, e⟩ := k.still hc
  obtain ⟨ha, e'⟩ := h.still hb
  exact ⟨ha, e.trans e'⟩

/-- What an edit leaves of a field that it changes, is left of all rows. -/
theorem sameRows_of_apply (hp : p.action.KeepsNames)
    (hV : ∀ f g, Record.applyChange f p = .ok g → V g = V f) (h : d.apply p = .ok d') :
    SameRows V d d' := by
  cases apply_eq_ok.1 h with
  | insert ha => simp [Action.KeepsNames, ha, Action.isInsertion] at hp
  | remove ha hr => simp [Action.KeepsNames, ha, Action.isRemoval] at hp
  | @change u name n v i r f ha hr hf =>
    obtain ⟨q, hq, rfl, -⟩ := resolve_eq_ok hr
    have hchange : Record.applyChange q.field p = .ok f := by
      rw [Record.applyChange_of_change ha]
      exact hf
    have hview := map_set_of_eq (f := Row.view V) (b := ⟨f, some p.uid, q.origin⟩) hq
      (by simp [Row.view, hV _ _ hchange])
    exact ⟨rfl, .of_eq hview, fun hm => ⟨hm, hview⟩⟩
  | @move u name j i r ha hr =>
    obtain ⟨q, hq, rfl, -⟩ := resolve_eq_ok hr
    have hview := map_set_of_eq (f := Row.view V) (b := { q with uid := some p.uid }) hq rfl
    refine ⟨rfl, ?_, fun hm => by cases hm⟩
    rw [← hview]
    exact (moveWithin_perm _ i j).map (Row.view V)

theorem sameRows_of_applyAll (hl : ∀ p ∈ l, p.action.KeepsNames)
    (hV : ∀ p ∈ l, ∀ f g, Record.applyChange f p = .ok g → V g = V f)
    (h : d.applyAll l = .ok d') : SameRows V d d' := by
  induction l generalizing d with
  | nil =>
    cases h
    exact .refl _
  | cons p l ih =>
    obtain ⟨d1, h1, h⟩ := foldlM_cons_eq_ok.1 h
    have hp := List.mem_cons_self (a := p) (l := l)
    exact (sameRows_of_apply (hl p hp) (hV p hp) h1).trans
      (ih (fun q hq => hl q (List.mem_cons_of_mem p hq))
        (fun q hq => hV q (List.mem_cons_of_mem p hq)) h)

theorem fields_perm_of_sameRows (h : SameRows V (Draft.of t) d) :
    (d.table.fields.map V).Perm (t.fields.map V) := by
  have hview : ∀ d : Draft, d.fields.map V = (d.rows.map (Row.view V)).map (·.1) := by
    intro d
    rw [fields, List.map_map, List.map_map]
    rfl
  rw [← fields_of t, table, hview, hview]
  exact h.perm.map _

/-- The field of the table that a row comes from. -/
theorem origin_of_sameRows (h : SameRows V (Draft.of t) d) {r : Row} (hr : r ∈ d.rows) :
    ∃ i f, t.fields[i]? = some f ∧ V f = V r.field ∧ r.origin = some ⟨f.name, i⟩ := by
  have hview : r.view V ∈ (Draft.of t).rows.map (Row.view V) :=
    h.perm.mem_iff.1 (List.mem_map_of_mem hr)
  obtain ⟨q, hq, e⟩ := List.mem_map.1 hview
  obtain ⟨⟨f, i⟩, hi, rfl⟩ := List.mem_map.1 hq
  obtain ⟨hfield, horigin⟩ := Prod.mk.inj e
  exact ⟨i, f, List.mk_mem_zipIdx_iff_getElem?.1 hi, hfield, horigin.symm⟩

end Views

/-- The rows of `d` are those of `d'`, which may have been moved. -/
structure SameTags (d d' : Draft) : Prop where
  name : d'.name = d.name
  perm : (d'.rows.map Row.tag).Perm (d.rows.map Row.tag)
  still : d'.moved = false → d.moved = false ∧ d'.rows.map Row.tag = d.rows.map Row.tag

/-- The tags are the rows, with nothing seen of the fields but their names. -/
theorem sameTags_iff {d d' : Draft} : SameTags d d' ↔ SameRows Field.name d d' :=
  ⟨fun h => ⟨h.name, h.perm, h.still⟩, fun h => ⟨h.name, h.perm, h.still⟩⟩

theorem sameTags_of_applyAll {d d' : Draft} {l : List Planned}
    (hl : ∀ p ∈ l, p.action.KeepsNames) (h : d.applyAll l = .ok d') : SameTags d d' :=
  sameTags_iff.2 (sameRows_of_applyAll hl
    (fun p hp _ _ hchange => Record.name_of_not_rename (hl p hp).2.2 hchange) h)

theorem map_tag_of (t : Table) : (Draft.of t).rows.map Row.tag =
    t.fields.zipIdx.map fun (f, i) => (f.name, some ⟨f.name, i⟩) := by
  rw [Draft.of, List.map_map]
  rfl

variable {t : Table} {d : Draft}

theorem origin_of_sameTags (h : SameTags (Draft.of t) d) {r : Row} (hr : r ∈ d.rows) :
    ∃ i f, t.fields[i]? = some f ∧ f.name = r.field.name ∧ r.origin = some ⟨f.name, i⟩ :=
  origin_of_sameRows (sameTags_iff.1 h) hr

theorem names_perm_of_sameTags (h : SameTags (Draft.of t) d) : d.table.names.Perm t.names :=
  fields_perm_of_sameRows (sameTags_iff.1 h)

theorem names_getElem?_origin (h : SameTags (Draft.of t) d) {r : Row} (hr : r ∈ d.rows)
    {o : Origin} (ho : r.origin = some o) : t.names[o.position]? = some r.field.name := by
  obtain ⟨i, f, hi, hname, ho'⟩ := origin_of_sameTags h hr
  rw [ho] at ho'
  cases ho'
  rw [Table.names, List.getElem?_map, hi, ← hname]
  rfl

end Draft

end TableAlteration
