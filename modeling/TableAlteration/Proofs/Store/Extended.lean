import TableAlteration.Proofs.Dict
import TableAlteration.Proofs.Field.Extended
import TableAlteration.Proofs.Table

namespace TableAlteration

/-- The value in the extended data of a table, for the field with exactly that name. -/
def Catalog.extendedValue? (c : Catalog) (table field : String) (p : Property) : Option Value := do
  let data ← c.extended? table
  let values ← data.get? field
  values.get? p.key

/-- The extended data of the table have the value that the definition has. -/
def Catalog.AgreesOn (c : Catalog) (table : String) (f : Field) (p : Property) : Prop :=
  c.extendedValue? table f.name p = f.extendedValue? p

/-- A field has an entry if it has extended data, and no other name has one. -/
theorem Table.extendedData_eq_some {t : Table} (h : t.names.Nodup) {name : String}
    {data : Dict String Value} : t.extendedData.get? name = some data ↔
      ∃ f ∈ t.fields, f.hasExtendedData ∧ f.name = name ∧ f.extendedData = data := by
  have hnodup : ((t.fields.filter Field.hasExtendedData).map
      fun f => (f.name, f.extendedData)).map Prod.fst |>.Nodup := by
    rw [List.map_map]
    exact (h.sublist ((List.filter_sublist ..).map _) :)
  unfold extendedData
  rw [Dict.get?_ofList hnodup, List.mem_map]
  simp only [List.mem_filter, Prod.mk.injEq, and_assoc]

theorem Table.extendedData_get?_name {t : Table} (h : t.names.Nodup) {f : Field}
    (hf : f ∈ t.fields) : t.extendedData.get? f.name =
      if f.hasExtendedData then some f.extendedData else none := by
  apply Option.ext
  intro data
  rw [extendedData_eq_some h, Option.ite_none_right_eq_some, Option.some.injEq]
  constructor
  · intro hg
    obtain ⟨g, hg, hhas, hname, hdata⟩ := hg
    obtain rfl : g = f := List.inj_on_of_nodup_map h hg hf hname
    exact ⟨hhas, hdata⟩
  · intro hd
    exact ⟨f, hf, hd.1, rfl, hd.2⟩

theorem Table.extendedData_get? {t : Table} (h : t.NamesDistinct) {f : Field} (hf : f ∈ t.fields)
    (p : Property) :
    (t.extendedData.get? f.name).bind (·.get? p.key) = f.extendedValue? p := by
  rw [extendedData_get?_name h.names_nodup hf]
  split
  · rfl
  · rename_i hnone
    rw [Field.extendedValue?_of_not_hasExtendedData (Bool.eq_false_iff.2 hnone)]
    rfl

/-- Once the extended data of a table are stored, they have the values of its definition. -/
theorem Catalog.extendedValue?_storeExtended (c : Catalog) {t : Table} {table : String}
    (h : t.NamesDistinct) (hname : Text.sameName t.name table) {f : Field} (hf : f ∈ t.fields)
    (p : Property) :
    (c.storeExtended t).extendedValue? table f.name p = f.extendedValue? p := by
  have hkey : Text.fold t.name = Text.fold table := Text.sameName_iff.1 hname
  have hdata : (c.storeExtended t).extended? table = some t.extendedData := by
    unfold extended? storeExtended
    rw [hkey]
    exact Dict.get?_insert_self ..
  unfold extendedValue?
  rw [hdata]
  exact Table.extendedData_get? h hf p

theorem Catalog.extendedValue?_congr {c c' : Catalog} (h : c'.extended = c.extended)
    (table field : String) (p : Property) :
    c'.extendedValue? table field p = c.extendedValue? table field p := by
  unfold extendedValue? extended?
  rw [h]

end TableAlteration
