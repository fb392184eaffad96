import TableAlteration.Edit.Requirements

namespace TableAlteration

namespace Property

variable {s t : String} {p q : Property}

theorem fold_written (h : ofName? s = some p) : Text.fold p.written = Text.fold s := by
  unfold ofName? at h
  have h' := List.find?_some h
  exact Text.sameName_iff.1 h'

theorem ofName?_congr (h : Text.fold s = Text.fold t) : ofName? s = ofName? t := by
  unfold ofName? Text.sameName
  rw [h]

theorem ofName?_eq_name_iff : ofName? s = some .name ↔ Text.sameName s "name" := by
  constructor
  · intro h
    exact Text.sameName_iff.2 (fold_written h).symm
  · intro h
    rw [ofName?_congr (Text.sameName_iff.1 h)]
    decide

/-- The key of the property's value in the extended data of a field. -/
def key (p : Property) : String := Text.fold p.written

theorem ofName?_written (p : Property) : ofName? p.written = some p := by
  cases p with
  | lookup l => cases l <;> decide
  | _ => decide

theorem key_injective (h : p.key = q.key) : p = q := by
  have hp := ofName?_written p
  rw [ofName?_congr h, ofName?_written q] at hp
  exact (Option.some.inj hp).symm

theorem ofName?_eq_some_iff : ofName? s = some p ↔ p.key = Text.fold s := by
  constructor
  · exact fold_written
  · intro h
    rw [← ofName?_congr h]
    exact ofName?_written p

theorem ofKey?_key (p : Property) : ofKey? p.key = some p := by
  have hall : ∀ p ∈ all, ofKey? p.key = some p := by decide +kernel
  exact hall p (mem_all p)

theorem key_of_ofKey? (h : ofKey? (Text.fold s) = some p) : p.key = Text.fold s := by
  unfold ofKey? at h
  split at h
  case h_17 =>
    obtain ⟨l, hl, rfl⟩ := Option.map_eq_some_iff.1 h
    unfold LookupProperty.ofName? at hl
    have hname := List.find?_some hl
    have hkey : Text.fold l.name = Text.fold (Text.fold s) := Text.sameName_iff.1 hname
    rwa [Text.fold_fold] at hkey
  all_goals
    rename_i hs
    cases h
    rw [hs]
    decide

theorem ofKey?_fold (s : String) : ofKey? (Text.fold s) = ofName? s := by
  apply Option.ext
  intro p
  rw [ofName?_eq_some_iff]
  constructor
  · exact key_of_ofKey?
  · intro h
    rw [← h]
    exact ofKey?_key p

end Property

namespace Requirements

/-- The properties in the order of the table. -/
def entered : List Property :=
  LookupProperty.all.map Property.lookup ++
    [.name, .type, .caption, .description, .unsigned, .maxLength, .precision, .defaultValue,
      .defaultWidth, .primaryKey, .unique, .notNull, .allowEmpty, .autoIncrement, .indexed,
      .visibleDecimalPlaces]

theorem byKey_eq : byKey = entered.map fun p => (p.key, p.requirements) := rfl

theorem mem_entered (p : Property) : p ∈ entered := by
  cases p with
  | lookup l => exact List.mem_append_left _ (List.mem_map_of_mem (LookupProperty.mem_all l))
  | _ => decide

theorem lookup_key {p : Property} {l : List Property} (hp : p ∈ l) :
    (l.map fun p => (p.key, p.requirements)).lookup p.key = some p.requirements := by
  induction l with
  | nil => cases hp
  | cons q l ih =>
    rw [List.map_cons, List.lookup_cons]
    by_cases h : p = q
    · subst h
      rw [beq_self_eq_true]
    · have hkey : (p.key == q.key) = false :=
        beq_eq_false_iff_ne.2 fun e => h (Property.key_injective e)
      rw [hkey]
      exact ih ((List.mem_cons.1 hp).resolve_left h)

theorem byKey_lookup (s : String) :
    byKey.lookup (Text.fold s) = (Property.ofName? s).map Property.requirements := by
  cases h : Property.ofName? s with
  | some p =>
    rw [← Property.ofName?_eq_some_iff.1 h]
    exact lookup_key (mem_entered p)
  | none =>
    rw [byKey_eq, Option.map_none, List.lookup_eq_none_iff]
    intro e he
    obtain ⟨p, -, rfl⟩ := List.mem_map.1 he
    refine bne_iff_ne.2 fun hkey => ?_
    rw [Property.ofName?_eq_some_iff.2 hkey.symm] at h
    cases h

end Requirements

theorem classify_eq (s : String) : classify s =
    match Property.ofName? s with
    | some p => .ok p.requirements
    | none => .error (.unknownProperty s) := by
  unfold classify
  rw [Requirements.byKey_lookup]
  cases Property.ofName? s <;> rfl

end TableAlteration
