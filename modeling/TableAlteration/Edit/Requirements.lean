import TableAlteration.Field.Property

namespace TableAlteration

/-- What an edit needs: a rebuild of the physical table, a conversion of its data, a new main row of
the catalog, new extended data, or several of these. -/
structure Requirements where
  physical : Bool := false
  conversion : Bool := false
  main : Bool := false
  extended : Bool := false
  deriving DecidableEq, Repr

namespace Requirements

def none : Requirements := {}

def join (r s : Requirements) : Requirements where
  physical := r.physical || s.physical
  conversion := r.conversion || s.conversion
  main := r.main || s.main
  extended := r.extended || s.extended

def all (l : List Requirements) : Requirements := l.foldr join none

def isEmpty (r : Requirements) : Bool := r = none

/-- Whether `r` needs all that `s` needs. -/
def contains (r s : Requirements) : Bool := r.join s = r

/-- Whether `r` and `s` have a need in common. -/
def intersects (r s : Requirements) : Bool :=
  r.physical && s.physical || r.conversion && s.conversion || r.main && s.main ||
    r.extended && s.extended

/-- Rebuild, conversion, main row and extended data count 1, 2, 4 and 8. -/
def bits (r : Requirements) : Nat :=
  r.physical.toNat + 2 * r.conversion.toNat + 4 * r.main.toNat + 8 * r.extended.toNat

def names (r : Requirements) : List String :=
  (if r.physical then ["physical"] else []) ++
    (if r.conversion then ["data conversion"] else []) ++
    (if r.main then ["main schema"] else []) ++
    (if r.extended then ["extended schema"] else [])

def write (r : Requirements) : String :=
  if r.isEmpty then "none" else String.intercalate " | " r.names

end Requirements

def Property.requirements : Property → Requirements
  | name | allowEmpty => { physical := true, main := true }
  | type | unsigned | maxLength | precision | primaryKey | unique | notNull | autoIncrement
  | indexed => { physical := true, conversion := true }
  | caption | description | defaultValue => { main := true }
  | defaultWidth | visibleDecimalPlaces | lookup _ => { extended := true }

namespace Requirements

/-- By name, without the look-up properties. -/
def table : List (String × Requirements) :=
  let conversion : Requirements := { physical := true, conversion := true }
  let definition : Requirements := { physical := true, main := true }
  [("name", definition), ("type", conversion), ("caption", { main := true }),
    ("description", { main := true }), ("unsigned", conversion), ("maxLength", conversion),
    ("precision", conversion), ("defaultValue", { main := true }),
    ("defaultWidth", { extended := true }), ("primaryKey", conversion), ("unique", conversion),
    ("notNull", conversion), ("allowEmpty", definition), ("autoIncrement", conversion),
    ("indexed", conversion), ("visibleDecimalPlaces", { extended := true })]

/-- By folded names. The look-up properties are entered last, and what is entered later stands in
front. -/
def byKey : List (String × Requirements) :=
  LookupProperty.all.map (fun l => (l.key, { extended := true })) ++
    table.map fun e => (Text.fold e.1, e.2)

end Requirements

/-- The requirements of setting the property with that name. -/
def classify (property : String) : Except AlterError Requirements :=
  match Requirements.byKey.lookup (Text.fold property) with
  | some r => .ok r
  | none => .error (.unknownProperty property)

inductive Strategy where
  /-- Catalog rows are replaced; the physical table stays. -/
  | inPlace
  /-- The table is created anew and its data copied. -/
  | rebuild
  deriving DecidableEq, Repr

def Strategy.for? (r : Requirements) : Option Strategy :=
  if r.isEmpty then none else if r.physical then some .rebuild else some .inPlace

end TableAlteration
