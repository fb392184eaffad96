import Mathlib.Data.List.Nodup
import TableAlteration.Table.Basic

namespace TableAlteration

namespace Table

theorem repeatedName?_eq_none {seen l : List String} :
    repeatedName? seen l = none ↔ (∀ n ∈ l, Text.fold n ∉ seen) ∧ (l.map Text.fold).Nodup := by
  induction l generalizing seen with
  | nil => simp [repeatedName?]
  | cons n rest ih =>
    rw [repeatedName?]
    split
    · rename_i h
      simp [h]
    · rename_i h
      rw [ih, List.map_cons, List.nodup_cons]
      simp only [List.mem_cons, not_or, List.mem_map, not_exists, not_and]
      grind

/-- No two fields have the same name, whatever the case. -/
def NamesDistinct (t : Table) : Prop := (t.fields.map fun f => Text.fold f.name).Nodup

instance (t : Table) : Decidable t.NamesDistinct := inferInstanceAs (Decidable (List.Nodup _))

theorem duplicateFieldName?_eq_none {t : Table} :
    t.duplicateFieldName? = none ↔ t.NamesDistinct := by
  rw [duplicateFieldName?, repeatedName?_eq_none, List.map_map]
  simp only [List.not_mem_nil, not_false_eq_true, implies_true, true_and]
  rfl

theorem NamesDistinct.eq_of_sameName {t : Table} (h : t.NamesDistinct) {i j : Nat}
    {f g : Field} (hi : t.fields[i]? = some f) (hj : t.fields[j]? = some g)
    (hn : Text.sameName f.name g.name) : i = j := by
  have hlt : i < (t.fields.map fun f => Text.fold f.name).length := by
    rw [List.length_map]
    exact (List.getElem?_eq_some_iff.1 hi).1
  have hfold : (t.fields.map fun f => Text.fold f.name)[i]? =
      (t.fields.map fun f => Text.fold f.name)[j]? := by
    rw [List.getElem?_map, List.getElem?_map, hi, hj]
    exact congrArg some (Text.sameName_iff.1 hn)
  exact (List.getElem?_inj hlt h).1 hfold

theorem NamesDistinct.fieldIndex?_eq_some {t : Table} (h : t.NamesDistinct) {name : String}
    {i : Nat} :
    t.fieldIndex? name = some i ↔ ∃ f, t.fields[i]? = some f ∧ Text.sameName f.name name := by
  unfold fieldIndex?
  constructor
  · intro hi
    obtain ⟨hlt, hs, -⟩ := List.findIdx?_eq_some_iff_getElem.1 hi
    exact ⟨_, List.getElem?_eq_getElem hlt, hs⟩
  · rintro ⟨f, hf, hs⟩
    obtain ⟨hlt, rfl⟩ := List.getElem?_eq_some_iff.1 hf
    refine List.findIdx?_eq_some_iff_getElem.2 ⟨hlt, hs, fun k hk hks => ?_⟩
    have hkt : t.fields[k]? = some t.fields[k] := List.getElem?_eq_getElem (Nat.lt_trans hk hlt)
    rw [Text.sameName_comm] at hs
    have hsame := Text.sameName_trans hks hs
    exact Nat.ne_of_lt hk (h.eq_of_sameName hkt hf hsame)

/-- The name of a field finds that field. -/
theorem NamesDistinct.field?_of_getElem? {t : Table} (h : t.NamesDistinct) {i : Nat} {f : Field}
    (hf : t.fields[i]? = some f) : t.field? f.name = some f := by
  obtain ⟨hlt, rfl⟩ := List.getElem?_eq_some_iff.1 hf
  refine List.find?_eq_some_iff_getElem.2 ⟨Text.sameName_refl _, i, hlt, rfl, fun k hk => ?_⟩
  have hkt : t.fields[k]? = some t.fields[k] := List.getElem?_eq_getElem (Nat.lt_trans hk hlt)
  rw [Bool.not_eq_true']
  refine Bool.eq_false_iff.2 fun hks => ?_
  exact Nat.ne_of_lt hk (h.eq_of_sameName hkt hf hks)

def names (t : Table) : List String := t.fields.map (·.name)

theorem NamesDistinct.names_nodup {t : Table} (h : t.NamesDistinct) : t.names.Nodup := by
  have h' : (t.names.map Text.fold).Nodup := by
    rw [names, List.map_map]
    exact h
  exact List.Nodup.of_map Text.fold h'

theorem namesDistinct_of_perm {s t : Table} (h : s.names.Perm t.names) (hs : s.NamesDistinct) :
    t.NamesDistinct := by
  have hmap : ∀ t : Table, (t.fields.map fun f => Text.fold f.name) = t.names.map Text.fold := by
    intro t
    rw [names, List.map_map]
    rfl
  unfold NamesDistinct at hs ⊢
  rw [hmap] at hs ⊢
  exact (h.map Text.fold).nodup_iff.1 hs

end Table

end TableAlteration
