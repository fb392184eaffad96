import Mathlib.Data.List.Nodup
import TableAlteration.Field.Property

namespace TableAlteration

abbrev Assignment := Property × Value

/-- Without the assignments that are followed by another one of the same property. -/
def lastAssignments : List Assignment → List Assignment
  | [] => []
  | a :: l => if a.1 ∈ l.map Prod.fst then lastAssignments l else a :: lastAssignments l

section LastAssignments

variable {l : List Assignment} {a b : Assignment} {p : Property}

theorem lastAssignments_of_mem (h : a.1 ∈ l.map Prod.fst) :
    lastAssignments (a :: l) = lastAssignments l := if_pos h

theorem lastAssignments_of_not_mem (h : a.1 ∉ l.map Prod.fst) :
    lastAssignments (a :: l) = a :: lastAssignments l := if_neg h

theorem mem_properties_lastAssignments :
    p ∈ (lastAssignments l).map Prod.fst ↔ p ∈ l.map Prod.fst := by
  induction l with
  | nil => rfl
  | cons a l ih =>
    by_cases ha : a.1 ∈ l.map Prod.fst
    · rw [lastAssignments_of_mem ha, ih, List.map_cons, List.mem_cons]
      refine ⟨.inr, fun h => h.elim (fun e => ?_) id⟩
      rw [e]
      exact ha
    · rw [lastAssignments_of_not_mem ha, List.map_cons, List.map_cons, List.mem_cons,
        List.mem_cons, ih]

theorem nodup_lastAssignments (l : List Assignment) :
    ((lastAssignments l).map Prod.fst).Nodup := by
  induction l with
  | nil => exact List.nodup_nil
  | cons a l ih =>
    by_cases ha : a.1 ∈ l.map Prod.fst
    · rw [lastAssignments_of_mem ha]
      exact ih
    · rw [lastAssignments_of_not_mem ha, List.map_cons, List.nodup_cons]
      exact ⟨fun h => ha (mem_properties_lastAssignments.1 h), ih⟩

theorem eq_of_mem_lastAssignments (ha : a ∈ lastAssignments l) (hb : b ∈ lastAssignments l)
    (h : a.1 = b.1) : a = b :=
  List.inj_on_of_nodup_map (nodup_lastAssignments l) ha hb h

theorem filter_lastAssignments (s : Property → Bool) (l : List Assignment) :
    (lastAssignments l).filter (fun a => s a.1) =
      lastAssignments (l.filter fun a => s a.1) := by
  induction l with
  | nil => rfl
  | cons a l ih =>
    by_cases hs : s a.1
    · have hmem : a.1 ∈ (l.filter fun a => s a.1).map Prod.fst ↔ a.1 ∈ l.map Prod.fst := by
        simp only [List.mem_map, List.mem_filter]
        refine exists_congr fun b => ⟨fun h => ⟨h.1.1, h.2⟩, fun h => ⟨⟨h.1, ?_⟩, h.2⟩⟩
        rw [h.2]
        exact hs
      rw [List.filter_cons, if_pos hs]
      by_cases ha : a.1 ∈ l.map Prod.fst
      · rw [lastAssignments_of_mem ha, lastAssignments_of_mem (hmem.2 ha), ih]
      · rw [lastAssignments_of_not_mem ha, lastAssignments_of_not_mem (mt hmem.1 ha),
          List.filter_cons, if_pos hs, ih]
    · rw [List.filter_cons, if_neg hs, ← ih]
      by_cases ha : a.1 ∈ l.map Prod.fst
      · rw [lastAssignments_of_mem ha]
      · rw [lastAssignments_of_not_mem ha, List.filter_cons, if_neg hs]

end LastAssignments

/-- What the properties `type`, `primaryKey`, `notNull`, `autoIncrement` and
`visibleDecimalPlaces` set in a field. -/
@[ext]
structure Entangled where
  type : FieldType
  primaryKey : Bool
  notNull : Bool
  autoIncrement : Bool
  decimalPlaces : Option Int32

def Field.entangled (f : Field) : Entangled :=
  ⟨f.type, f.constraints.primaryKey, f.constraints.notNull, f.constraints.autoIncrement,
    f.decimalPlaces⟩

namespace Entangled

/-- For a value that the property does not accept the result has no meaning. -/
def after (x : Entangled) : Assignment → Entangled
  | (.type, v) =>
    let t := v.asType.toOption.getD .byte
    { x with
      type := t
      autoIncrement := x.autoIncrement && t.allowsAutoIncrement
      decimalPlaces := if t.hasDecimalPlaces then x.decimalPlaces else none }
  | (.primaryKey, v) =>
    let on := v.flag?.getD false
    { x with primaryKey := on, notNull := on || x.notNull }
  | (.notNull, v) => { x with notNull := v.flag?.getD false }
  | (.autoIncrement, v) => { x with autoIncrement := v.flag?.getD false }
  | (.visibleDecimalPlaces, v) =>
    { x with decimalPlaces := v.asOptionalPlaces.toOption.getD none }
  | _ => x

def afterAll (x : Entangled) (l : List Assignment) : Entangled := l.foldl after x

end Entangled

/-- What one of these properties sets. Assignments of one other property may reset it. -/
structure Attribute (α : Type) where
  owner : Property
  part : Entangled → α
  reset : α
  resets : Assignment → Bool
  resets_one : ∀ {a b : Assignment}, resets a → resets b → a.1 = b.1
  part_owner : ∀ (x y : Entangled) (v : Value),
    part (x.after (owner, v)) = part (y.after (owner, v))
  part_other : ∀ (x : Entangled) (a : Assignment), a.1 ≠ owner →
    part (x.after a) = if resets a then reset else part x

namespace Attribute

variable {α : Type} (e : Attribute α)

/-- The attribute is not set in `l`, and the last assignment of that property does not reset it. -/
def Spared (p : Property) (l : List Assignment) : Prop :=
  e.owner ∉ l.map Prod.fst ∧ ∃ b ∈ lastAssignments l, b.1 = p ∧ e.resets b = false

/-- An assignment resets the attribute, and the last assignments do not. -/
def Missed (x : Entangled) (l : List Assignment) : Prop :=
  ∃ k a m, l = k ++ a :: m ∧ e.part (x.afterAll k) ≠ e.reset ∧ e.resets a ∧ e.Spared a.1 m

variable {e} {x y : Entangled} {a : Assignment} {l : List Assignment}

theorem part_of_not_owned (ho : e.owner ∉ l.map Prod.fst) :
    e.part (x.afterAll l) = if l.any e.resets then e.reset else e.part x := by
  induction l generalizing x with
  | nil => rfl
  | cons a l ih =>
    rw [List.map_cons, List.mem_cons, not_or] at ho
    change e.part ((x.after a).afterAll l) = _
    rw [ih ho.2, e.part_other x a (Ne.symm ho.1), List.any_cons]
    cases e.resets a with
    | true => exact ite_self e.reset
    | false => rfl

theorem missed_nil : ¬e.Missed x [] := by
  rintro ⟨k, a, m, h, -⟩
  exact List.append_ne_nil_of_right_ne_nil k (List.cons_ne_nil a m) h.symm

theorem missed_cons : e.Missed x (a :: l) ↔
    (e.part x ≠ e.reset ∧ e.resets a ∧ e.Spared a.1 l) ∨ e.Missed (x.after a) l := by
  constructor
  · rintro ⟨k, b, m, hl, h⟩
    cases k with
    | nil =>
      cases hl
      exact .inl h
    | cons c k =>
      obtain ⟨rfl, rfl⟩ := List.cons.inj hl
      exact .inr ⟨k, b, m, rfl, h⟩
  · rintro (h | ⟨k, b, m, rfl, h⟩)
    · exact ⟨[], a, l, rfl, h⟩
    · exact ⟨a :: k, b, m, rfl, h⟩

theorem not_missed_of_reset (ho : e.owner ∉ l.map Prod.fst) (hx : e.part x = e.reset) :
    ¬e.Missed x l := by
  rintro ⟨k, a, m, rfl, h, -⟩
  rw [List.map_append, List.mem_append, not_or] at ho
  rw [part_of_not_owned ho.1, hx, ite_self] at h
  exact h rfl

/-- Where an attribute has been reset, the last assignments have to reset it too. -/
theorem part_eq_iff_of_reset (ho : e.owner ∉ l.map Prod.fst) (ha : a.1 ∈ l.map Prod.fst)
    (hr : e.resets a) (hx : e.part x = e.reset) (hy : e.part y ≠ e.reset) :
    e.part (y.afterAll (lastAssignments l)) = e.part (x.afterAll l) ↔ ¬e.Spared a.1 l := by
  have hlast : e.owner ∉ (lastAssignments l).map Prod.fst :=
    fun h => ho (mem_properties_lastAssignments.1 h)
  obtain ⟨b, hb, hba⟩ := List.mem_map.1 (mem_properties_lastAssignments.2 ha)
  have hany : (lastAssignments l).any e.resets = e.resets b := by
    rw [Bool.eq_iff_iff, List.any_eq_true]
    refine ⟨fun ⟨c, hc, hcr⟩ => ?_, fun h => ⟨b, hb, h⟩⟩
    rwa [← eq_of_mem_lastAssignments hc hb ((e.resets_one hcr hr).trans hba.symm)]
  have hspared : e.Spared a.1 l ↔ e.resets b = false := by
    refine ⟨fun ⟨_, c, hc, hca, h⟩ => ?_, fun h => ⟨ho, b, hb, hba, h⟩⟩
    rwa [← eq_of_mem_lastAssignments hc hb (hca.trans hba.symm)]
  rw [part_of_not_owned ho, part_of_not_owned hlast, hx, ite_self, hany, hspared]
  cases e.resets b <;> simp [hy]

/-- The last assignments make of the attribute what all of them do, unless a reset is missed. -/
theorem part_eq_iff (h : e.owner ∈ l.map Prod.fst ∨ e.part x = e.part y) :
    e.part (y.afterAll (lastAssignments l)) = e.part (x.afterAll l) ↔ ¬e.Missed x l := by
  induction l generalizing x y with
  | nil => exact iff_of_true (h.resolve_left List.not_mem_nil).symm missed_nil
  | cons a l ih =>
    change _ = e.part ((x.after a).afterAll l) ↔ _
    rw [missed_cons]
    by_cases ha : a.1 ∈ l.map Prod.fst
    · rw [lastAssignments_of_mem ha]
      by_cases ho : e.owner ∈ l.map Prod.fst
      · rw [ih (.inl ho), or_iff_right fun hmissed => hmissed.2.2.1 ho]
      · have hne : a.1 ≠ e.owner := fun he => ho (he ▸ ha)
        have hxy : e.part x = e.part y := by
          refine h.resolve_left fun hmem => ?_
          exact (List.mem_cons.1 hmem).elim (fun he => hne he.symm) ho
        have hstep := e.part_other x a hne
        by_cases hr : e.resets a
        · rw [if_pos hr] at hstep
          by_cases hreset : e.part x = e.reset
          · rw [ih (.inr (hstep.trans (hreset.symm.trans hxy))),
              or_iff_right fun hmissed => hmissed.1 hreset]
          · rw [part_eq_iff_of_reset ho ha hr hstep (hxy ▸ hreset),
              or_iff_left (not_missed_of_reset ho hstep)]
            simp [hreset, hr]
        · rw [if_neg hr] at hstep
          rw [ih (.inr (hstep.trans hxy)), or_iff_right fun hmissed => hr hmissed.2.1]
    · rw [lastAssignments_of_not_mem ha]
      change e.part ((y.after a).afterAll _) = _ ↔ _
      have hnext : e.owner ∈ l.map Prod.fst ∨ e.part (x.after a) = e.part (y.after a) := by
        by_cases he : a.1 = e.owner
        · obtain ⟨p, v⟩ := a
          cases he
          exact .inr (e.part_owner x y v)
        · rcases h with hmem | hxy
          · exact .inl ((List.mem_cons.1 hmem).resolve_left (Ne.symm he))
          · rw [e.part_other x a he, e.part_other y a he, hxy]
            exact .inr rfl
      have hhead : ¬(e.part x ≠ e.reset ∧ e.resets a ∧ e.Spared a.1 l) := by
        rintro ⟨-, -, -, b, hb, hba, -⟩
        exact ha (mem_properties_lastAssignments.1 (List.mem_map.2 ⟨b, hb, hba⟩))
      rw [ih hnext, or_iff_right hhead]

/-- A reset is missed only if the property that resets is assigned twice. -/
theorem twice_of_missed (h : e.Missed x l) :
    ∃ a, e.resets a ∧ 2 ≤ (l.map Prod.fst).count a.1 := by
  obtain ⟨k, a, m, rfl, -, hr, -, b, hb, hba, -⟩ := h
  have hmem : a.1 ∈ m.map Prod.fst :=
    mem_properties_lastAssignments.1 (List.mem_map.2 ⟨b, hb, hba⟩)
  have hpos := List.count_pos_iff.2 hmem
  refine ⟨a, hr, ?_⟩
  rw [List.map_append, List.map_cons, List.count_append, List.count_cons_self]
  omega

/-- No other property reaches the type. -/
def typing : Attribute FieldType where
  owner := .type
  part x := x.type
  reset := .byte
  resets := fun _ => false
  resets_one h := by cases h
  part_owner x y v := rfl
  part_other x a h := by
    obtain ⟨p, v⟩ := a
    cases p with
    | type => exact absurd rfl h
    | _ => rfl

/-- Nor the primary key. -/
def keyness : Attribute Bool where
  owner := .primaryKey
  part x := x.primaryKey
  reset := false
  resets := fun _ => false
  resets_one h := by cases h
  part_owner x y v := rfl
  part_other x a h := by
    obtain ⟨p, v⟩ := a
    cases p with
    | primaryKey => exact absurd rfl h
    | _ => rfl

/-- A primary key cannot be null. -/
def nullability : Attribute Bool where
  owner := .notNull
  part x := x.notNull
  reset := true
  resets a := a.1 = .primaryKey && a.2.flag?.getD false
  resets_one ha hb := by
    simp only [Bool.and_eq_true, decide_eq_true_eq] at ha hb
    exact ha.1.trans hb.1.symm
  part_owner x y v := rfl
  part_other x a h := by
    obtain ⟨p, v⟩ := a
    cases p with
    | notNull => exact absurd rfl h
    | primaryKey =>
      change (v.flag?.getD false || x.notNull) = if v.flag?.getD false then true else x.notNull
      cases v.flag?.getD false <;> rfl
    | _ => rfl

/-- Not all types can be counted up. -/
def counting : Attribute Bool where
  owner := .autoIncrement
  part x := x.autoIncrement
  reset := false
  resets a := a.1 = .type && !(a.2.asType.toOption.getD .byte).allowsAutoIncrement
  resets_one ha hb := by
    simp only [Bool.and_eq_true, decide_eq_true_eq] at ha hb
    exact ha.1.trans hb.1.symm
  part_owner x y v := rfl
  part_other x a h := by
    obtain ⟨p, v⟩ := a
    cases p with
    | autoIncrement => exact absurd rfl h
    | type =>
      change (x.autoIncrement && (v.asType.toOption.getD .byte).allowsAutoIncrement) =
        if !(v.asType.toOption.getD .byte).allowsAutoIncrement then false else x.autoIncrement
      cases (v.asType.toOption.getD .byte).allowsAutoIncrement
      · exact Bool.and_false _
      · exact Bool.and_true _
    | _ => rfl

/-- Not all types have decimal places. -/
def places : Attribute (Option Int32) where
  owner := .visibleDecimalPlaces
  part x := x.decimalPlaces
  reset := none
  resets a := a.1 = .type && !(a.2.asType.toOption.getD .byte).hasDecimalPlaces
  resets_one ha hb := by
    simp only [Bool.and_eq_true, decide_eq_true_eq] at ha hb
    exact ha.1.trans hb.1.symm
  part_owner x y v := rfl
  part_other x a h := by
    obtain ⟨p, v⟩ := a
    cases p with
    | visibleDecimalPlaces => exact absurd rfl h
    | type =>
      change (if (v.asType.toOption.getD .byte).hasDecimalPlaces then x.decimalPlaces else none) =
        if !(v.asType.toOption.getD .byte).hasDecimalPlaces then none else x.decimalPlaces
      cases (v.asType.toOption.getD .byte).hasDecimalPlaces <;> rfl
    | _ => rfl

end Attribute

end TableAlteration
