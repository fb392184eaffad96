import TableAlteration.Proofs.Dict
import TableAlteration.Proofs.Store.Placing
import TableAlteration.Proofs.Table
import TableAlteration.Store.Catalog

namespace TableAlteration

namespace Table

/-- A name of the table is found where it stands. -/
theorem fieldIndex?_eq_idxOf {t : Table} (h : t.NamesDistinct) {name : String}
    (hn : name ∈ t.names) : t.fieldIndex? name = some (t.names.idxOf name) := by
  have hlt : t.names.idxOf name < t.fields.length := by
    have hlt := List.idxOf_lt_length_of_mem hn
    rwa [names, List.length_map] at hlt
  have hname : (t.fields[t.names.idxOf name]).name = name := by
    have hget := List.getElem_idxOf (List.idxOf_lt_length_of_mem hn)
    simp only [names, List.getElem_map] at hget
    exact hget
  refine h.fieldIndex?_eq_some.2 ⟨_, List.getElem?_eq_getElem hlt, ?_⟩
  rw [hname]
  exact Text.sameName_refl name

theorem names_storeField {t : Table} (h : t.NamesDistinct) {f : Field} (hf : f.name ∈ t.names)
    (i : Nat) : (t.storeField i f).names = place t.names i f.name := by
  unfold storeField
  rw [fieldIndex?_eq_idxOf h hf]
  simp only [insertField, insertPosition, names, place]
  rw [List.map_insertIdx, List.erase_eq_eraseIdx_of_idxOf rfl, List.eraseIdx_map]
  simp

theorem names_storeField_perm {t : Table} (h : t.NamesDistinct) {f : Field}
    (hf : f.name ∈ t.names) (i : Nat) : (t.storeField i f).names.Perm t.names := by
  rw [names_storeField h hf]
  exact place_perm hf i

def storeFields (t : Table) (l : List (Nat × Field)) : Table :=
  l.foldl (fun t x => t.storeField x.1 x.2) t

theorem name_storeField (t : Table) (i : Nat) (f : Field) : (t.storeField i f).name = t.name := by
  unfold storeField insertField
  split <;> rfl

theorem name_storeFields (t : Table) (l : List (Nat × Field)) :
    (t.storeFields l).name = t.name := by
  induction l generalizing t with
  | nil => rfl
  | cons x l ih => exact (ih (t.storeField x.1 x.2)).trans (name_storeField t x.1 x.2)

/-- Storing a field replaces the one of its name. -/
theorem mem_fields_storeField {t : Table} (h : t.NamesDistinct) {f g : Field}
    (hg : g.name ∈ t.names) (i : Nat) :
    f ∈ (t.storeField i g).fields ↔ f = g ∨ f ∈ t.fields ∧ f.name ≠ g.name := by
  have hlt := List.idxOf_lt_length_of_mem hg
  have hname := List.getElem_idxOf hlt
  have hrest : f ∈ t.fields.eraseIdx (t.names.idxOf g.name) ↔
      f ∈ t.fields ∧ f.name ≠ g.name := by
    rw [List.mem_eraseIdx_iff_getElem?, List.mem_iff_getElem?]
    constructor
    · intro h
      obtain ⟨j, hj, hf⟩ := h
      refine ⟨⟨j, hf⟩, fun e => hj ?_⟩
      have hfj : t.names[j]? = some f.name := by rw [names, List.getElem?_map, hf]; rfl
      rw [e] at hfj
      have hjlt : j < t.names.length := (List.getElem?_eq_some_iff.1 hfj).1
      rw [← hname, ← List.getElem?_eq_getElem hlt] at hfj
      exact (List.getElem?_inj hjlt h.names_nodup).1 hfj
    · intro h
      obtain ⟨⟨j, hf⟩, hne⟩ := h
      refine ⟨j, fun e => hne ?_, hf⟩
      subst e
      have hfj : t.names[t.names.idxOf g.name]? = some f.name := by
        rw [names, List.getElem?_map, ← names, hf]
        rfl
      rw [List.getElem?_eq_getElem hlt, hname] at hfj
      exact (Option.some.inj hfj).symm
  unfold storeField
  rw [fieldIndex?_eq_idxOf h hg]
  simp only [insertField, insertPosition]
  rw [List.mem_insertIdx (Nat.min_le_right ..), hrest]

theorem mem_fields_storeFields {t : Table} (h : t.NamesDistinct) {l : List (Nat × Field)}
    (hsub : ∀ x ∈ l, x.2.name ∈ t.names) (hl : (l.map (·.2.name)).Nodup) {f : Field} :
    f ∈ (t.storeFields l).fields ↔
      (∃ x ∈ l, f = x.2) ∨ f ∈ t.fields ∧ ∀ x ∈ l, f.name ≠ x.2.name := by
  induction l generalizing t with
  | nil => simp [storeFields]
  | cons x l ih =>
    rw [List.map_cons, List.nodup_cons] at hl
    have hx := hsub x List.mem_cons_self
    have hperm := names_storeField_perm h hx x.1
    have hrest : ∀ y ∈ l, y.2.name ∈ (t.storeField x.1 x.2).names := fun y hy =>
      hperm.mem_iff.2 (hsub y (List.mem_cons_of_mem x hy))
    have hnew : ∀ y ∈ l, x.2.name ≠ y.2.name := fun y hy e =>
      hl.1 (e ▸ List.mem_map_of_mem hy)
    have hstep : (t.storeFields (x :: l)) = (t.storeField x.1 x.2).storeFields l := rfl
    rw [hstep, ih (namesDistinct_of_perm hperm.symm h) hrest hl.2,
      mem_fields_storeField h hx]
    simp only [List.mem_cons, exists_eq_or_imp, forall_eq_or_imp]
    constructor
    · intro h
      rcases h with hy | ⟨rfl | ⟨hf, hne⟩, hall⟩
      · exact .inl (.inr hy)
      · exact .inl (.inl rfl)
      · exact .inr ⟨hf, hne, hall⟩
    · intro h
      rcases h with (rfl | hy) | ⟨hf, hne, hall⟩
      · exact .inr ⟨.inl rfl, hnew⟩
      · exact .inl hy
      · exact .inr ⟨.inr ⟨hf, hne⟩, hall⟩

end Table

namespace Catalog

variable {c c' : Catalog} {t u : Table} {table other : String} {l : List (Nat × Field)}

/-- Whatever the case of a name, the definition found under it has that name. -/
theorem fold_name_of_table? (h : c.table? table = some t) : Text.fold t.name = Text.fold table :=
  c.keyed _ t h

theorem sameName_of_table? (h : c.table? table = some t) : Text.sameName t.name table :=
  Text.sameName_iff.2 (fold_name_of_table? h)

theorem table?_congr (h : Text.fold other = Text.fold table) : c.table? other = c.table? table :=
  congrArg c.tables.get? h

theorem table?_name (h : c.table? table = some t) : c.table? t.name = some t :=
  (table?_congr (fold_name_of_table? h)).trans h

theorem table?_register (c : Catalog) (t : Table) (name : String) :
    (c.register t).table? name =
      if Text.fold name = Text.fold t.name then some t else c.table? name :=
  Dict.get?_insert ..

theorem register_of_table? (h : c.table? table = some t) : c.register t = c := by
  have hfound : c.tables.get? (Text.fold t.name) = some t := by
    rw [fold_name_of_table? h]
    exact h
  exact Catalog.ext (Dict.insert_of_get?_some hfound) rfl

theorem register_register (h : Text.fold t.name = Text.fold u.name) :
    (c.register t).register u = c.register u := by
  refine Catalog.ext ?_ rfl
  change (c.tables.insert _ t).insert _ u = c.tables.insert _ u
  rw [h, Dict.insert_insert_self]

/-- Stores the fields one after the other; `none` if the catalog has no such table. -/
def storeFields? (c : Catalog) (table : String) (l : List (Nat × Field)) : Option Catalog :=
  l.foldlM (fun c x => c.storeField? table x.1 x.2) c

/-- The rows of a table that the catalog has are stored in that table alone. -/
theorem storeFields?_eq (ht : c.table? table = some t) (l : List (Nat × Field)) :
    c.storeFields? table l = some (c.register (t.storeFields l)) := by
  induction l generalizing c t with
  | nil =>
    change some c = some (c.register t)
    rw [register_of_table? ht]
  | cons x l ih =>
    have hx : c.storeField? table x.1 x.2 = some (c.register (t.storeField x.1 x.2)) := by
      unfold storeField?
      rw [ht]
      rfl
    have hname := Table.name_storeField t x.1 x.2
    have hstored : (c.register (t.storeField x.1 x.2)).table? table =
        some (t.storeField x.1 x.2) := by
      rw [table?_register, hname, if_pos (fold_name_of_table? ht).symm]
    have hsame : Text.fold (t.storeField x.1 x.2).name =
        Text.fold (t.storeFields (x :: l)).name := by
      rw [hname, Table.name_storeFields]
    rw [storeFields?, List.foldlM_cons, hx]
    change storeFields? _ table l = _
    rw [ih hstored, ← register_register hsame]
    rfl

/-- Nothing is stored where the catalog has no such table. -/
theorem storeFields?_eq_some (h : c.storeFields? table l = some c') :
    c' = c ∨ ∃ t, c.table? table = some t ∧ c' = c.register (t.storeFields l) := by
  cases ht : c.table? table with
  | some t =>
    rw [storeFields?_eq ht, Option.some.injEq] at h
    exact .inr ⟨t, rfl, h.symm⟩
  | none =>
    cases l with
    | nil =>
      cases h
      exact .inl rfl
    | cons x l =>
      obtain ⟨c1, h1, -⟩ := Option.bind_eq_some_iff.1 h
      obtain ⟨t, ht', -⟩ := Option.map_eq_some_iff.1 h1
      rw [ht] at ht'
      cases ht'

theorem table?_storeFields? (ht : c.table? table = some t) (h : c.storeFields? table l = some c') :
    c'.table? table = some (t.storeFields l) := by
  rw [storeFields?_eq ht] at h
  cases h
  rw [table?_register, Table.name_storeFields, if_pos (fold_name_of_table? ht).symm]

/-- Rows stored under the name that the definition has are found under every spelling of it. -/
theorem table?_storeFields?_name (ht : c.table? table = some t)
    (h : c.storeFields? t.name l = some c') : c'.table? table = some (t.storeFields l) := by
  rw [← table?_congr (fold_name_of_table? ht)]
  exact table?_storeFields? (table?_name ht) h

theorem table?_storeFields?_of_ne (hne : Text.sameName other table = false)
    (h : c.storeFields? table l = some c') : c'.table? other = c.table? other := by
  have hkey := Text.sameName_eq_false_iff.1 hne
  rcases storeFields?_eq_some h with rfl | ⟨t, ht, rfl⟩
  · rfl
  · rw [table?_register, Table.name_storeFields, fold_name_of_table? ht, if_neg hkey]

theorem extended_storeFields? (h : c.storeFields? table l = some c') :
    c'.extended = c.extended := by
  rcases storeFields?_eq_some h with rfl | ⟨t, -, rfl⟩ <;> rfl

end Catalog

end TableAlteration
