import TableAlteration.Edit.Record
import TableAlteration.Proofs.Dict
import TableAlteration.Proofs.Failure
import TableAlteration.Proofs.Field.Updates

namespace TableAlteration

/-- Setting the property changes nothing else. -/
def Property.standsAlone : Property → Bool
  | .type | .primaryKey => false
  | _ => true

/-- All fields that differ from `f` in this property only have the same `f.forget p`. -/
def Field.forget (p : Property) (f : Field) : Field :=
  match p with
  | .name => { f with name := "" }
  | .type => { f with type := .byte }
  | .caption => { f with caption := none }
  | .description => { f with description := none }
  | .unsigned => { f with unsigned := false }
  | .maxLength => { f with maxLength := none }
  | .precision => { f with precision := none }
  | .defaultValue => { f with default := none }
  | .defaultWidth => { f with defaultWidth := none }
  | .primaryKey => { f with constraints := { f.constraints with primaryKey := false } }
  | .unique => { f with constraints := { f.constraints with unique := false } }
  | .notNull => { f with constraints := { f.constraints with notNull := false } }
  | .allowEmpty => { f with constraints := { f.constraints with notEmpty := false } }
  | .autoIncrement => { f with constraints := { f.constraints with autoIncrement := false } }
  | .indexed => { f with constraints := { f.constraints with indexed := false } }
  | .visibleDecimalPlaces => { f with decimalPlaces := none }
  | .lookup l => { f with extended := f.extended.erase l.key }

namespace Field

/-- What setting the property may make of `f`. -/
def Alters (p : Property) (f g : Field) : Prop :=
  match p with
  | .name => ∃ s, g = { f with name := s }
  | .type => ∃ t, g = f.withType t
  | .caption => ∃ s, g = { f with caption := s }
  | .description => ∃ s, g = { f with description := s }
  | .unsigned => ∃ b, g = { f with unsigned := b }
  | .maxLength => ∃ n, g = { f with maxLength := n }
  | .precision => ∃ n, g = { f with precision := n }
  | .defaultValue => ∃ v, g = { f with default := v }
  | .defaultWidth => ∃ n, g = { f with defaultWidth := n }
  | .primaryKey => ∃ b : Bool, g = { f with
      constraints := { f.constraints with primaryKey := b, notNull := b || f.constraints.notNull } }
  | .unique => ∃ b, g = { f with constraints := { f.constraints with unique := b } }
  | .notNull => ∃ b, g = { f with constraints := { f.constraints with notNull := b } }
  | .allowEmpty => ∃ b, g = { f with constraints := { f.constraints with notEmpty := b } }
  | .autoIncrement => ∃ b : Bool, (b → f.type.allowsAutoIncrement) ∧
      g = { f with constraints := { f.constraints with autoIncrement := b } }
  | .indexed => ∃ b, g = { f with constraints := { f.constraints with indexed := b } }
  | .visibleDecimalPlaces => f.type.hasDecimalPlaces ∧ ∃ n, g = { f with decimalPlaces := n }
  | .lookup l => ∃ e : Dict String Value, e.erase l.key = f.extended.erase l.key ∧
      g = { f with extended := e }

theorem alters_of_set {f g : Field} {v : Value} {p : Property} (hg : f.set v p = .ok g) :
    Alters p f g := by
  cases p with
  | defaultValue =>
    cases hg
    exact ⟨_, rfl⟩
  | lookup l =>
    cases hg
    refine ⟨_, ?_, rfl⟩
    split
    · exact Dict.erase_erase_self ..
    · exact Dict.erase_insert_self ..
  | autoIncrement =>
    obtain ⟨on, hv, e⟩ := bind_eq_ok.1 hg
    split at e
    · cases e
    · rename_i h
      cases e
      refine ⟨on, ?_, rfl⟩
      simpa using h
  | visibleDecimalPlaces =>
    simp only [set] at hg
    split at hg
    · rename_i h
      obtain ⟨n, hv, e⟩ := bind_eq_ok.1 hg
      cases e
      exact ⟨h, n, rfl⟩
    · cases hg
  | _ =>
    obtain ⟨x, hv, e⟩ := bind_eq_ok.1 hg
    cases e
    exact ⟨_, rfl⟩

theorem name_of_alters {f g : Field} {p : Property} (h : p ≠ .name) (hg : Alters p f g) :
    g.name = f.name := by
  cases p with
  | name => exact absurd rfl h
  | autoIncrement | lookup l =>
    obtain ⟨x, -, rfl⟩ := hg
    rfl
  | visibleDecimalPlaces =>
    obtain ⟨-, x, rfl⟩ := hg
    rfl
  | _ =>
    obtain ⟨x, rfl⟩ := hg
    rfl

theorem forget_of_alters {f g : Field} {p : Property} (h : p.standsAlone) (hg : Alters p f g) :
    g.forget p = f.forget p := by
  cases p with
  | type | primaryKey => cases h
  | lookup l =>
    obtain ⟨e, he, rfl⟩ := hg
    simp only [forget, he]
  | autoIncrement =>
    obtain ⟨x, -, rfl⟩ := hg
    rfl
  | visibleDecimalPlaces =>
    obtain ⟨-, x, rfl⟩ := hg
    rfl
  | _ =>
    obtain ⟨x, rfl⟩ := hg
    rfl

theorem set_forget_self (f : Field) (v : Value) (p : Property) (h : p.standsAlone) :
    (f.forget p).set v p = f.set v p := by
  cases p with
  | type | primaryKey => cases h
  | lookup l =>
    simp only [set, forget]
    rw [Dict.insert_erase_self, Dict.erase_erase_self]
  | _ => rfl

theorem forget_type (f : Field) {p : Property} (h : p.standsAlone) :
    (f.forget p).type = f.type := by
  cases p <;> first | rfl | cases h

theorem map_forget_set (f : Field) (v : Value) (p q : Property) (h : p.standsAlone) :
    ((f.forget p).set v q).map (forget p) = (f.set v q).map (forget p) := by
  cases q with
  | defaultValue =>
    cases p with
    | type | primaryKey => cases h
    | lookup l => simp only [set, withDefault, forget, Except.map, Dict.erase_erase_self]
    | _ => rfl
  | lookup m =>
    cases p with
    | lookup l =>
      refine congrArg Except.ok (congrArg (fun e => ({ f with extended := e } : Field)) ?_)
      simp only [forget]
      split
      · rw [Dict.erase_erase_comm, Dict.erase_erase_self, Dict.erase_erase_comm]
      · exact Dict.erase_insert_erase ..
    | type | primaryKey => cases h
    | _ => rfl
  | autoIncrement =>
    simp only [set, map_bind, forget_type f h]
    cases v.asFlag with
    | error e => rfl
    | ok on =>
      change Except.map _ (if _ then _ else _) = Except.map _ (if _ then _ else _)
      cases on && !f.type.allowsAutoIncrement with
      | true => rfl
      | false =>
        cases p with
        | type | primaryKey => cases h
        | lookup l => simp [forget, Except.map, pure, Except.pure, Dict.erase_erase_self]
        | _ => rfl
  | visibleDecimalPlaces =>
    simp only [set, forget_type f h]
    cases f.type.hasDecimalPlaces with
    | false => rfl
    | true =>
      simp only [if_true, map_bind]
      cases p with
      | type | primaryKey => cases h
      | lookup l => simp [forget, Except.map, pure, Except.pure, Dict.erase_erase_self]
      | _ => rfl
  | _ =>
    simp only [set, map_bind]
    cases p with
    | type | primaryKey => cases h
    | lookup l => simp [forget, withType, Except.map, pure, Except.pure, Dict.erase_erase_self]
    | _ => rfl

/-- Fields that differ in `p` only take the same value alike. -/
theorem set_eq_of_forget_eq {f g : Field} {p : Property} (h : p.standsAlone)
    (e : f.forget p = g.forget p) (v : Value) : f.set v p = g.set v p := by
  rw [← set_forget_self f v p h, e, set_forget_self g v p h]

/-- Fields that differ in `p` only differ in `p` only when any property is set. -/
theorem set_of_forget_eq {f g f' : Field} {v : Value} {p q : Property} (h : p.standsAlone)
    (e : f.forget p = g.forget p) (hf : f.set v q = .ok f') :
    ∃ g', g.set v q = .ok g' ∧ f'.forget p = g'.forget p := by
  have hm : (g.set v q).map (forget p) = .ok (f'.forget p) := by
    rw [← map_forget_set g v p q h, ← e, map_forget_set f v p q h, hf]
    rfl
  obtain ⟨g', hg, e'⟩ := map_eq_ok.1 hm
  exact ⟨g', hg, e'.symm⟩

end Field

theorem Field.setNamed_eq_ok {f g : Field} {s : String} {v : Value} :
    f.setNamed s v = .ok g ↔ ∃ p, Property.ofName? s = some p ∧ f.set v p = .ok g := by
  rw [setNamed_eq]
  split
  · rename_i h
    simp [h]
  · rename_i p h
    split <;> rename_i h' <;> simp [h, h']

end TableAlteration
