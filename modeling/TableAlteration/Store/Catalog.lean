import TableAlteration.Table.Basic

namespace TableAlteration

/-- For each field that has any, its properties by name. -/
abbrev ExtendedData := Dict String (Dict String Value)

theorem Dict.fold_name_of_get?_empty (key : String) (t : Table)
    (h : (∅ : Dict String Table).get? key = some t) : Text.fold t.name = key := nomatch h

/-- The definitions of tables, and apart from them the extended data of their fields. Tables are
known by their folded names. -/
@[ext]
structure Catalog where
  tables : Dict String Table := ∅
  extended : Dict String ExtendedData := ∅
  /-- No definition stands under the name of another table. -/
  keyed : ∀ key t, tables.get? key = some t → Text.fold t.name = key := by
    exact Dict.fold_name_of_get?_empty
  deriving DecidableEq

namespace Catalog

def register (c : Catalog) (t : Table) : Catalog where
  tables := c.tables.insert (Text.fold t.name) t
  extended := c.extended
  keyed := by
    intro key u h
    rw [Dict.get?_insert] at h
    split at h
    · rename_i hkey
      cases h
      exact hkey.symm
    · exact c.keyed key u h

def unregister (c : Catalog) (name : String) : Catalog where
  tables := c.tables.erase (Text.fold name)
  extended := c.extended.erase (Text.fold name)
  keyed := by
    intro key t h
    rw [Dict.get?_erase, Option.ite_none_left_eq_some] at h
    exact c.keyed key t h.2

def table? (c : Catalog) (name : String) : Option Table := c.tables.get? (Text.fold name)

def extended? (c : Catalog) (name : String) : Option ExtendedData :=
  c.extended.get? (Text.fold name)

end Catalog

/-- The first field with that name makes room, and `f` takes its place at `position`. -/
def Table.storeField (t : Table) (position : Nat) (f : Field) : Table :=
  let rest := match t.fieldIndex? f.name with
    | some i => { t with fields := t.fields.eraseIdx i }
    | none => t
  rest.insertField position f

/-- The extended data of a field under the names of the properties. -/
def Field.extendedData (f : Field) : Dict String Value :=
  let widths := match f.defaultWidth with
    | some n => f.extended.insert (Text.fold Property.defaultWidth.written) (.ofUInt32 n)
    | none => f.extended
  match f.decimalPlaces with
  | some n => widths.insert (Text.fold Property.visibleDecimalPlaces.written) (.ofInt32 n)
  | none => widths

def Field.hasExtendedData (f : Field) : Bool :=
  !f.extended.isEmpty || f.defaultWidth.isSome || f.decimalPlaces.isSome

def Table.extendedData (t : Table) : ExtendedData :=
  .ofList ((t.fields.filter Field.hasExtendedData).map fun f => (f.name, f.extendedData))

namespace Catalog

/-- `none` if the catalog has no such table. The definition stays under the name that it has. -/
def storeField? (c : Catalog) (table : String) (position : Nat) (f : Field) : Option Catalog :=
  (c.table? table).map fun t => c.register (t.storeField position f)

def storeExtended (c : Catalog) (t : Table) : Catalog :=
  { c with extended := c.extended.insert (Text.fold t.name) t.extendedData }

end Catalog

end TableAlteration
