import TableAlteration.Proofs.Field.Overwriting
import TableAlteration.Store.Catalog

namespace TableAlteration

namespace Field

variable {f g : Field} {p q : Property}

/-- The value in the extended data that the definition gives rise to. -/
def extendedValue? (f : Field) (p : Property) : Option Value := f.extendedData.get? p.key

theorem extendedValue?_of_not_hasExtendedData (h : f.hasExtendedData = false) (p : Property) :
    f.extendedValue? p = none := by
  unfold hasExtendedData at h
  simp only [Bool.or_eq_false_iff, Bool.not_eq_false', Option.isSome_eq_false_iff,
    Option.isNone_iff_eq_none] at h
  obtain ⟨⟨he, hw⟩, hd⟩ := h
  unfold extendedValue? extendedData
  rw [hw, hd]
  have hentries : f.extended.entries = [] := List.isEmpty_iff.1 he
  simp only [Dict.get?, hentries, Dict.lookup]

/-- The decimal places come first, then the width, then the look-up properties. -/
theorem extendedValue?_eq (f : Field) (p : Property) : f.extendedValue? p =
    ((if p = .visibleDecimalPlaces then f.decimalPlaces.map Value.ofInt32 else none).or
      (if p = .defaultWidth then f.defaultWidth.map Value.ofUInt32 else none)).or
        (f.extended.get? p.key) := by
  have hkey : ∀ q : Property, p.key = Text.fold q.written ↔ p = q := fun q =>
    ⟨Property.key_injective, fun e => e ▸ rfl⟩
  unfold extendedValue? extendedData
  cases f.defaultWidth with
  | none =>
    cases f.decimalPlaces with
    | none => simp
    | some n =>
      simp only [Dict.get?_insert, hkey]
      split <;> simp
  | some m =>
    cases f.decimalPlaces with
    | none =>
      simp only [Dict.get?_insert, hkey]
      split <;> simp
    | some n =>
      simp only [Dict.get?_insert, hkey]
      split
      · simp
      · split <;> simp

/-- Setting another property keeps the value, unless it is a type without decimal places. -/
theorem extendedValue?_of_alters (hq : q ≠ p)
    (htype : p = .visibleDecimalPlaces → q = .type → g.type.hasDecimalPlaces)
    (h : Alters q f g) : g.extendedValue? p = f.extendedValue? p := by
  rw [extendedValue?_eq, extendedValue?_eq]
  cases q with
  | type =>
    obtain ⟨t, rfl⟩ := h
    by_cases hd : p = .visibleDecimalPlaces
    · have ht : t.hasDecimalPlaces := htype hd rfl
      simp [withType, ht]
    · simp [withType, hd]
  | defaultWidth =>
    obtain ⟨n, rfl⟩ := h
    rw [if_neg (Ne.symm hq), if_neg (Ne.symm hq)]
  | visibleDecimalPlaces =>
    obtain ⟨-, n, rfl⟩ := h
    rw [if_neg (Ne.symm hq), if_neg (Ne.symm hq)]
  | lookup l =>
    obtain ⟨e, he, rfl⟩ := h
    have hkey : p.key ≠ l.key := fun h => hq (Property.key_injective (q := .lookup l) h).symm
    have hget := congrArg (·.get? p.key) he
    simp only [Dict.get?_erase, if_neg hkey] at hget
    simp only [hget]
  | autoIncrement =>
    obtain ⟨b, -, rfl⟩ := h
    rfl
  | _ =>
    obtain ⟨x, rfl⟩ := h
    rfl

end Field

end TableAlteration
