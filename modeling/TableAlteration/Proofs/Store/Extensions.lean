import TableAlteration.Proofs.Field.Ownership
import TableAlteration.Proofs.Store.Extended

namespace TableAlteration

/-- What a field has beside its main definition. -/
structure Extension where
  lookups : Dict String Value := ∅
  width : Option UInt32 := none
  places : Option Int32 := none
  deriving DecidableEq

/-- An entry of the extended data, with the values taken as if they were being set. -/
def Extension.read (data : Dict String Value) : Except Refusal Extension := do
  let width ← ((data.get? Property.defaultWidth.key).getD .null).asOptionalCount
  let places ← ((data.get? Property.visibleDecimalPlaces.key).getD .null).asOptionalPlaces
  let lookups := (data.erase Property.defaultWidth.key).erase Property.visibleDecimalPlaces.key
  return { lookups, width, places }

namespace Value

theorem asOptionalCount_ofUInt32 (n : UInt32) : (ofUInt32 n).asOptionalCount = .ok (some n) := by
  have hlt := n.toNat_lt
  have hint : (Int64.ofInt n.toNat).toInt = n.toNat :=
    Int64.toInt_ofInt_of_le (by omega) (by omega)
  have hread : uint32? n.toNat = some n := by
    unfold uint32?
    rw [if_pos ⟨Int.natCast_nonneg _, Int.ofNat_lt.2 hlt⟩, Int.toNat_natCast, UInt32.ofNat_toNat]
  simp [ofUInt32, asOptionalCount, isNull, integer?, hint, hread]

theorem asOptionalPlaces_ofInt32 (i : Int32) : (ofInt32 i).asOptionalPlaces = .ok (some i) := by
  have hread : int32? i.toInt = some i := by
    unfold int32?
    rw [if_pos ⟨i.le_toInt, i.toInt_lt⟩, Int32.ofInt_toInt]
  simp [ofInt32, asOptionalPlaces, isNull, integer?, hread]

end Value

theorem LookupProperty.isSome_ofName?_iff {s : String} :
    (ofName? s).isSome ↔ ∃ l : LookupProperty, l.key = Text.fold s := by
  unfold ofName?
  rw [List.find?_isSome]
  constructor
  · intro h
    obtain ⟨l, -, hl⟩ := h
    exact ⟨l, Text.sameName_iff.1 hl⟩
  · intro h
    obtain ⟨l, hl⟩ := h
    exact ⟨l, mem_all l, Text.sameName_iff.2 hl⟩

namespace Field

variable {f g : Field} {p : Property}

def extension (f : Field) : Extension := ⟨f.extended, f.defaultWidth, f.decimalPlaces⟩

/-- The look-up properties of the field are registered ones, in whatever case. -/
def OnlyRegistered (f : Field) : Prop :=
  ∀ k v, f.extended.get? k = some v → (LookupProperty.ofName? k).isSome

instance (f : Field) : Decidable f.OnlyRegistered :=
  decidable_of_iff (∀ e ∈ f.extended.entries, (LookupProperty.ofName? e.1).isSome)
    ⟨fun h k v hv => h (k, v) (Dict.get?_eq_some_iff.1 hv),
      fun h e he => h e.1 e.2 (Dict.get?_eq_some_iff.2 he)⟩

/-- No look-up property is stored under the key of another one. -/
theorem OnlyRegistered.get?_eq_none (h : f.OnlyRegistered) (hp : ∀ l, p ≠ .lookup l) :
    f.extended.get? p.key = none := by
  refine Option.eq_none_iff_forall_ne_some.2 fun v hv => ?_
  obtain ⟨l, hl⟩ := LookupProperty.isSome_ofName?_iff.1 (h _ v hv)
  have hkey : p.key = (Property.lookup l).key := by
    rw [Property.key, Text.fold_fold] at hl
    exact hl.symm
  exact hp l (Property.key_injective hkey)

theorem OnlyRegistered.get?_defaultWidth (h : f.OnlyRegistered) :
    f.extendedData.get? Property.defaultWidth.key = f.defaultWidth.map Value.ofUInt32 := by
  have hvalue := f.extendedValue?_eq .defaultWidth
  rw [h.get?_eq_none (p := .defaultWidth) nofun, if_neg nofun, if_pos rfl, Option.none_or,
    Option.or_none] at hvalue
  exact hvalue

theorem OnlyRegistered.get?_decimalPlaces (h : f.OnlyRegistered) :
    f.extendedData.get? Property.visibleDecimalPlaces.key =
      f.decimalPlaces.map Value.ofInt32 := by
  have hvalue := f.extendedValue?_eq .visibleDecimalPlaces
  rw [h.get?_eq_none (p := .visibleDecimalPlaces) nofun, if_pos rfl, if_neg nofun, Option.or_none,
    Option.or_none] at hvalue
  exact hvalue

theorem get?_extendedData_of_ne {k : String} (hw : k ≠ Property.defaultWidth.key)
    (hp : k ≠ Property.visibleDecimalPlaces.key) :
    f.extendedData.get? k = f.extended.get? k := by
  unfold extendedData
  cases f.defaultWidth with
  | none =>
    cases f.decimalPlaces with
    | none => rfl
    | some n => exact (Dict.get?_insert ..).trans (if_neg hp)
  | some m =>
    have hwidth := (Dict.get?_insert f.extended Property.defaultWidth.key k
      (.ofUInt32 m)).trans (if_neg hw)
    cases f.decimalPlaces with
    | none => exact hwidth
    | some n => exact ((Dict.get?_insert ..).trans (if_neg hp)).trans hwidth

theorem OnlyRegistered.erase_extendedData (h : f.OnlyRegistered) :
    (f.extendedData.erase Property.defaultWidth.key).erase Property.visibleDecimalPlaces.key =
      f.extended := by
  refine Dict.ext fun k => ?_
  rw [Dict.get?_erase, Dict.get?_erase]
  split
  · rename_i hk
    rw [hk, h.get?_eq_none (p := .visibleDecimalPlaces) nofun]
  · rename_i hp
    split
    · rename_i hk
      rw [hk, h.get?_eq_none (p := .defaultWidth) nofun]
    · rename_i hw
      exact get?_extendedData_of_ne hw hp

theorem OnlyRegistered.read_extendedData (h : f.OnlyRegistered) :
    Extension.read f.extendedData = .ok f.extension := by
  have hwidth : ((f.defaultWidth.map Value.ofUInt32).getD .null).asOptionalCount =
      .ok f.defaultWidth := by
    cases f.defaultWidth with
    | none => rfl
    | some n => exact Value.asOptionalCount_ofUInt32 n
  have hplaces : ((f.decimalPlaces.map Value.ofInt32).getD .null).asOptionalPlaces =
      .ok f.decimalPlaces := by
    cases f.decimalPlaces with
    | none => rfl
    | some i => exact Value.asOptionalPlaces_ofInt32 i
  unfold Extension.read
  rw [h.erase_extendedData, h.get?_defaultWidth, h.get?_decimalPlaces, hwidth, hplaces]
  rfl

theorem hasExtendedData_eq_false : f.hasExtendedData = false ↔
    f.extended = ∅ ∧ f.defaultWidth = none ∧ f.decimalPlaces = none := by
  have hempty : f.extended.isEmpty = true ↔ f.extended = ∅ :=
    ⟨fun h => Dict.ext_entries (List.isEmpty_iff.1 h), fun h => by rw [h]; rfl⟩
  unfold hasExtendedData
  simp [hempty, and_assoc]

/-- What is set by name is looked up by a registered key. -/
theorem OnlyRegistered.setNamed {s : String} {v : Value} (h : f.OnlyRegistered)
    (hg : f.setNamed s v = .ok g) : g.OnlyRegistered := by
  obtain ⟨p, -, hset⟩ := setNamed_eq_ok.1 hg
  intro k w hk
  by_cases hp : p.part = .extended k
  · cases p with
    | lookup l =>
      cases hp
      exact LookupProperty.isSome_ofName?_iff.2 ⟨l, (Text.fold_fold _).symm⟩
    | _ => cases hp
  · have hreach : Part.extended k ∉ p.reach := by
      cases p <;> simp [Property.reach]
    have hsame : g.extended.get? k = f.extended.get? k := part_of_set hset (Ne.symm hp) hreach
    rw [hsame] at hk
    exact h k w hk

end Field

/-- What a field has beside its main definition can be read off the extended data of its table. -/
theorem Table.read_extendedData {t : Table} (hn : t.names.Nodup) {f : Field} (hf : f ∈ t.fields)
    (hr : f.OnlyRegistered) :
    Extension.read ((t.extendedData.get? f.name).getD ∅) = .ok f.extension := by
  rw [extendedData_get?_name hn hf]
  cases hhas : f.hasExtendedData with
  | true => exact hr.read_extendedData
  | false =>
    obtain ⟨he, hw, hp⟩ := Field.hasExtendedData_eq_false.1 hhas
    unfold Field.extension
    rw [he, hw, hp]
    rfl

theorem Catalog.extended?_storeExtended (c : Catalog) (t : Table) :
    (c.storeExtended t).extended? t.name = some t.extendedData := Dict.get?_insert_self ..

/-- The extended data that are stored for a table tell what each of its fields has beside its main
definition; a field without an entry has nothing. -/
theorem Catalog.extensions_determined (c : Catalog) {t : Table} (hn : t.names.Nodup)
    (hr : ∀ f ∈ t.fields, f.OnlyRegistered) :
    ∃ data, (c.storeExtended t).extended? t.name = some data ∧
      (∀ f ∈ t.fields, Extension.read ((data.get? f.name).getD ∅) = .ok f.extension ∧
        (data.get? f.name = none ↔
          f.extended = ∅ ∧ f.defaultWidth = none ∧ f.decimalPlaces = none)) ∧
      (∀ (c' : Catalog) (t' : Table), t'.names.Nodup → (∀ g ∈ t'.fields, g.OnlyRegistered) →
        (c'.storeExtended t').extended? t'.name = some data →
          ∀ f ∈ t.fields, ∀ g ∈ t'.fields, f.name = g.name → f.extended = g.extended ∧
            f.defaultWidth = g.defaultWidth ∧ f.decimalPlaces = g.decimalPlaces) ∧
      (∀ other, Text.sameName other t.name = false →
        (c.storeExtended t).extended? other = c.extended? other) ∧
      ∀ (f g : Field) (s : String) (v : Value), f.OnlyRegistered → f.setNamed s v = .ok g →
        g.OnlyRegistered := by
  refine ⟨t.extendedData, c.extended?_storeExtended t, ?_, ?_, ?_, ?_⟩
  · intro f hf
    refine ⟨Table.read_extendedData hn hf (hr f hf), ?_⟩
    rw [Table.extendedData_get?_name hn hf, ← Field.hasExtendedData_eq_false]
    cases f.hasExtendedData <;> simp
  · intro c' t' hn' hr' hdata f hf g hg e
    rw [extended?_storeExtended, Option.some.injEq] at hdata
    have hread := Table.read_extendedData hn hf (hr f hf)
    rw [e, ← hdata, Table.read_extendedData hn' hg (hr' g hg)] at hread
    obtain ⟨he, hw, hp⟩ := Extension.mk.inj (Except.ok.inj hread)
    exact ⟨he.symm, hw.symm, hp.symm⟩
  · intro other hne
    exact (Dict.get?_insert ..).trans (if_neg (Text.sameName_eq_false_iff.1 hne))
  · intro f g s v h hg
    exact h.setNamed hg

/-- Two fields whose names differ in case only, and one that has nothing to store. -/
def lookupTable : Table where
  name := "t"
  fields := [
    { name := "a", type := .text, defaultWidth := some 120,
      extended := .ofList [("rowsource", .text "cities"), ("listrows", .int 8)] },
    { name := "A", type := .double, decimalPlaces := some (-2) },
    { name := "b", type := .integer }]

/-- Another table of the same names, whose fields stand otherwise. -/
def otherLookupTable : Table where
  name := "u"
  fields := [
    { name := "b", type := .date, caption := some "Day" },
    { name := "A", type := .float, decimalPlaces := some (-2) },
    { name := "a", type := .longText, defaultWidth := some 120,
      extended := .ofList [("listrows", .int 8), ("rowsource", .text "cities")] }]

theorem Catalog.extensions_determined_of_lookups :
    lookupTable.names.Nodup ∧ (∀ f ∈ lookupTable.fields, f.OnlyRegistered) ∧
    ∃ data, (({} : Catalog).storeExtended lookupTable).extended? "T" = some data ∧
      data.get? "b" = none ∧
      (∀ f ∈ lookupTable.fields, Extension.read ((data.get? f.name).getD ∅) = .ok f.extension) ∧
      ∀ f ∈ lookupTable.fields, ∀ g ∈ otherLookupTable.fields, f.name = g.name →
        f.extended = g.extended ∧ f.defaultWidth = g.defaultWidth ∧
          f.decimalPlaces = g.decimalPlaces := by
  have hn : lookupTable.names.Nodup := by decide
  have hr : ∀ f ∈ lookupTable.fields, f.OnlyRegistered := by decide
  obtain ⟨data, hdata, hread, hagree, -, -⟩ := extensions_determined {} hn hr
  have hlast : lookupTable.fields[2] ∈ lookupTable.fields := List.getElem_mem _
  have hother : (({} : Catalog).storeExtended otherLookupTable).extended? "u" = some data := by
    rw [← hdata]
    decide +kernel
  exact ⟨hn, hr, data, hdata, (hread _ hlast).2.2 ⟨rfl, rfl, rfl⟩, fun f hf => (hread f hf).1,
    hagree {} otherLookupTable (by decide) (by decide) hother⟩

end TableAlteration
