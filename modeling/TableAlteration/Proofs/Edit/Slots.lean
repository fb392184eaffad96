import TableAlteration.Proofs.Edit.Places

namespace TableAlteration

/-- Whose edits a field takes, and where its data come from. -/
structure Slot where
  uid : Option Uid := none
  /-- The column of the old table that the data come from, and its position there. -/
  source : Option String := none
  position : Option Nat := none
  deriving DecidableEq, Repr

/-- A draft in two lists: the table as it is edited, and beside it a slot for each field. -/
structure SlottedTable where
  table : Table
  slots : List Slot
  changed : List Uid := []
  moved : Bool := false
  deriving DecidableEq

section Positions

variable {α : Type}

/-- The element at `i` and the others, if there is such an element. -/
def removeAt? (l : List α) (i : Nat) : Option (α × List α) := l[i]?.map fun a => (a, l.eraseIdx i)

/-- The element goes before another one or behind the last one, but not farther. -/
def insertAt? (l : List α) (i : Nat) (a : α) : Option (List α) :=
  if i ≤ l.length then some (l.insertIdx i a) else none

theorem removeAt?_map {β : Type} {l : List α} {i : Nat} {a : α} (h : l[i]? = some a) (f : α → β) :
    removeAt? (l.map f) i = some (f a, (l.eraseIdx i).map f) := by
  rw [removeAt?, List.getElem?_map, h, List.eraseIdx_map]
  rfl

theorem insertAt?_of_le {l : List α} {i : Nat} (h : i ≤ l.length) (a : α) :
    insertAt? l i a = some (l.insertIdx i a) := if_pos h

theorem moveWithin_of_lt {l : List α} {i : Nat} (h : i < l.length) (j : Nat) :
    moveWithin l i j = (l.eraseIdx i).insertIdx (min j (l.length - 1)) l[i] := by
  rw [moveWithin, List.getElem?_eq_getElem h]
  simp only [List.length_eraseIdx_of_lt h]

end Positions

namespace SlottedTable

def of (t : Table) : SlottedTable where
  table := t
  slots := t.fields.zipIdx.map fun (f, i) => { source := some f.name, position := some i }

/-- The position of the slot bound to `uid`, or else of the first unbound slot whose field has the
name, which is bound by it. -/
def resolve (s : SlottedTable) (uid : Uid) (name : String) :
    Except AlterError (Nat × SlottedTable) :=
  match s.slots.findIdx? fun x => x.uid = some uid with
  | some i => .ok (i, s)
  | none =>
    let named := (s.table.fields.zip s.slots).findIdx? fun (f, x) =>
      x.uid.isNone && Text.sameName f.name name
    match named with
    | some i => .ok (i, { s with slots := s.slots.modify i fun x => { x with uid := some uid } })
    | none => .error (.fieldNotFound s.table.name name)

def setField (s : SlottedTable) (i : Nat) (property : String) (v : Value) :
    Option (Except AlterError SlottedTable) := do
  let old ← s.table.fields[i]?
  return (old.setNamed property v).map fun f =>
    { s with table := { s.table with fields := s.table.fields.set i f } }

def insert (s : SlottedTable) (index : Nat) (f : Field) (x : Slot) : Option SlottedTable := do
  let slots ← insertAt? s.slots (s.table.insertPosition index) x
  return { s with table := s.table.insertField index f, slots }

def remove (s : SlottedTable) (i : Nat) : Option SlottedTable := do
  let (_, fields) ← removeAt? s.table.fields i
  let (_, slots) ← removeAt? s.slots i
  return { s with table := { s.table with fields }, slots }

/-- The slot goes to the position that the field has got. -/
def move (s : SlottedTable) (i index : Nat) : Option SlottedTable := do
  let (target, table) ← s.table.moveField? i index
  let (x, others) ← removeAt? s.slots i
  let slots ← insertAt? others target x
  return { s with table, slots }

/-- Nothing comes of a run that reaches a position out of range. -/
abbrev Run := ExceptT AlterError Option

def apply (s : SlottedTable) (p : Planned) : Run SlottedTable :=
  match p.action with
  | .change uid name property v => do
    let (i, s) ← .mk (some (s.resolve uid name))
    let s ← .mk (s.setField i property v)
    return { s with changed := if p.requirements.main then uid :: s.changed else s.changed }
  | .remove uid name => do
    let (i, s) ← .mk (some (s.resolve uid name))
    s.remove i
  | .insert uid index f => s.insert index f { uid := some uid }
  | .move uid name index => do
    let (i, s) ← .mk (some (s.resolve uid name))
    let s ← s.move i index
    return { s with changed := uid :: s.changed, moved := true }

def applyAll (s : SlottedTable) (l : List Planned) : Run SlottedTable := l.foldlM apply s

end SlottedTable

def Row.slot (r : Row) : Slot where
  uid := r.uid
  source := r.origin.map (·.column)
  position := r.origin.map (·.position)

namespace Draft

def split (d : Draft) : SlottedTable where
  table := d.table
  slots := d.rows.map Row.slot
  changed := d.changed
  moved := d.moved

variable {d : Draft} {i : Nat} {r : Row}

theorem split_of (t : Table) : (Draft.of t).split = SlottedTable.of t := by
  have hfields : (Draft.of t).table = t := congrArg (Table.mk t.name · t.indexes) (fields_of t)
  rw [split, SlottedTable.of, hfields, Draft.of, List.map_map]
  rfl

theorem length_fields (d : Draft) : d.fields.length = d.rows.length := List.length_map _

theorem length_slots (d : Draft) : d.split.slots.length = d.split.table.fields.length := by
  rw [split, List.length_map]
  exact d.length_fields.symm

/-- Binding a slot is exchanging a row for one with the same field. -/
theorem split_bind {q : Row} {u : Uid} (hq : d.rows[i]? = some q) :
    split { d with rows := d.rows.set i { q with uid := some u } } =
      { d.split with slots := d.split.slots.modify i fun x => { x with uid := some u } } := by
  have hfields : (d.rows.set i { q with uid := some u }).map (·.field) = d.rows.map (·.field) :=
    map_set_of_eq hq rfl
  have hslots : (d.rows.set i { q with uid := some u }).map Row.slot =
      (d.rows.map Row.slot).modify i fun x => { x with uid := some u } := by
    rw [List.modify_eq_set_getElem?, List.getElem?_map, hq, List.map_set]
    rfl
  simp only [split, table, fields, hfields, hslots]

theorem resolve_split (d : Draft) (u : Uid) (name : String) :
    d.split.resolve u name =
      (d.resolve u name).map fun (i, r) => (i, split { d with rows := d.rows.set i r }) := by
  have hnamed : (d.split.table.fields.zip d.split.slots).findIdx?
        (fun (f, x) => x.uid.isNone && Text.sameName f.name name) =
      d.rows.findIdx? fun r => r.uid.isNone && Text.sameName r.field.name name := by
    rw [split, table, fields, List.zip_map', List.findIdx?_map]
    rfl
  have hbound : d.split.slots.findIdx? (fun x => x.uid = some u) =
      d.rows.findIdx? fun r => r.uid = some u := by
    rw [split, List.findIdx?_map]
    rfl
  unfold SlottedTable.resolve resolve firstRow?
  simp only [hnamed, hbound]
  cases hi : d.rows.findIdx? fun r => r.uid = some u with
  | some i =>
    obtain ⟨hlt, hu, -⟩ := List.findIdx?_eq_some_iff_getElem.1 hi
    have hself : { d.rows[i] with uid := some u } = d.rows[i] := by
      rw [← of_decide_eq_true hu]
    simp [Except.map, hlt, hself]
  | none =>
    cases hj : d.rows.findIdx? fun r => r.uid.isNone && Text.sameName r.field.name name with
    | none => rfl
    | some j =>
      obtain ⟨hlt, -, -⟩ := List.findIdx?_eq_some_iff_getElem.1 hj
      simp [Except.map, hlt, split_bind (List.getElem?_eq_getElem hlt)]

theorem setField_split (h : d.rows[i]? = some r) (property : String) (v : Value) :
    d.split.setField i property v = some ((r.field.setNamed property v).map fun f =>
      split { d with rows := d.rows.set i { r with field := f } }) := by
  have hfield : d.split.table.fields[i]? = some r.field := by
    rw [split, table, fields, List.getElem?_map, h]
    rfl
  have hslots : ∀ f, (d.rows.set i { r with field := f }).map Row.slot = d.rows.map Row.slot :=
    fun f => map_set_of_eq h rfl
  rw [SlottedTable.setField, hfield]
  simp only [split, table, fields, hslots, List.map_set]
  rfl

theorem insert_split (d : Draft) (j : Nat) (r : Row) :
    d.split.insert j r.field r.slot =
      some (split { d with rows := d.rows.insertIdx (min j d.rows.length) r }) := by
  have hposition : d.split.table.insertPosition j = min j d.rows.length := by
    rw [Table.insertPosition, ← length_slots, split, List.length_map]
  have hslots : insertAt? d.split.slots (min j d.rows.length) r.slot =
      some ((d.rows.insertIdx (min j d.rows.length) r).map Row.slot) := by
    rw [split, List.map_insertIdx]
    refine insertAt?_of_le ?_ _
    rw [List.length_map]
    exact Nat.min_le_right ..
  rw [SlottedTable.insert, Table.insertField, hposition, hslots]
  simp only [split, table, fields, List.map_insertIdx]
  rfl

theorem remove_split (h : d.rows[i]? = some r) :
    d.split.remove i = some (split { d with rows := d.rows.eraseIdx i }) := by
  have hfields := removeAt?_map h (·.field)
  have hslots := removeAt?_map h Row.slot
  simp only [SlottedTable.remove, split, table, fields, hfields, hslots]
  rfl

theorem move_split (h : d.rows[i]? = some r) (j : Nat) :
    d.split.move i j = some (split { d with rows := moveWithin d.rows i j }) := by
  obtain ⟨hlt, rfl⟩ := List.getElem?_eq_some_iff.1 h
  have hlen : d.split.table.fields.length = d.rows.length := d.length_fields
  have hmove : d.split.table.moveField? i j = some (min j (d.rows.length - 1),
      { d.split.table with fields := (moveWithin d.rows i j).map (·.field) }) := by
    rw [Table.moveField?, hlen, if_pos hlt, map_moveWithin]
    rfl
  have hslots := removeAt?_map h Row.slot
  have hinsert : insertAt? ((d.rows.eraseIdx i).map Row.slot) (min j (d.rows.length - 1))
      (d.rows[i]).slot = some ((moveWithin d.rows i j).map Row.slot) := by
    rw [moveWithin_of_lt hlt, List.map_insertIdx]
    refine insertAt?_of_le ?_ _
    rw [List.length_map, List.length_eraseIdx_of_lt hlt]
    exact Nat.min_le_right ..
  rw [SlottedTable.move, hmove]
  simp only [split] at hslots ⊢
  simp only [hslots, hinsert, Option.bind_eq_bind, Option.bind_some]
  rfl

/-- What is done with the slot that is found is what is done with the row. -/
theorem bind_resolve_split {u : Uid} {name : String}
    {k : Nat × SlottedTable → SlottedTable.Run SlottedTable}
    {g : Nat × Row → Except AlterError Draft}
    (h : ∀ i r (e : Draft), e = { d with rows := d.rows.set i r } → e.rows[i]? = some r →
      k (i, e.split) = .mk (some ((g (i, r)).map split))) :
    (.mk (some (d.split.resolve u name)) >>= k) =
      (.mk (some ((d.resolve u name >>= g).map split)) : SlottedTable.Run SlottedTable) := by
  rw [resolve_split]
  cases hr : d.resolve u name with
  | error e => rfl
  | ok found =>
    obtain ⟨i, r⟩ := found
    obtain ⟨q, hq, -, -⟩ := resolve_eq_ok hr
    exact h i r _ rfl (List.getElem?_set_self (List.getElem?_eq_some_iff.1 hq).1)

/-- The lists take an edit as the rows do. -/
theorem apply_split (d : Draft) (p : Planned) :
    d.split.apply p = .mk (some ((d.apply p).map split)) := by
  unfold SlottedTable.apply apply
  cases p.action with
  | insert u j f => exact congrArg liftM (d.insert_split j { field := f, uid := some u })
  | change u name n v =>
    refine bind_resolve_split fun i r e he hr => ?_
    simp only [setField_split hr n v]
    simp only [he, List.set_set]
    cases r.field.setNamed n v <;> rfl
  | remove u name =>
    refine bind_resolve_split fun i r e he hr => ?_
    simp only [remove_split hr]
    rw [he, List.eraseIdx_set_eq]
    rfl
  | move u name j =>
    refine bind_resolve_split fun i r e he hr => ?_
    simp only [move_split hr]
    rw [he]
    rfl

theorem applyAll_split (d : Draft) (l : List Planned) :
    d.split.applyAll l = .mk (some ((d.applyAll l).map split)) := by
  induction l generalizing d with
  | nil => rfl
  | cons p l ih =>
    rw [SlottedTable.applyAll, applyAll, List.foldlM_cons, List.foldlM_cons, apply_split]
    cases d.apply p with
    | error e => rfl
    | ok d1 => exact ih d1

end Draft

end TableAlteration
