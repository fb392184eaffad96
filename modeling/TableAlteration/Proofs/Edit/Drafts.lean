import Mathlib.Data.List.Perm.Basic
import TableAlteration.Proofs.Edit.Fates
import TableAlteration.Proofs.Table

namespace TableAlteration

theorem moveWithin_perm {α : Type} (l : List α) (i j : Nat) : (moveWithin l i j).Perm l := by
  unfold moveWithin
  split
  · exact List.Perm.refl l
  · rename_i x hx
    obtain ⟨hi, rfl⟩ := List.getElem?_eq_some_iff.1 hx
    have hle : min j (l.eraseIdx i).length ≤ (l.eraseIdx i).length := Nat.min_le_right ..
    exact (List.perm_insertIdx _ _ hle).trans (List.getElem_cons_eraseIdx_perm hi)

/-- What an exchanged element has in common with the old one, the list keeps. -/
theorem map_set_of_eq {α β : Type} {f : α → β} {l : List α} {i : Nat} {a b : α}
    (h : l[i]? = some a) (e : f b = f a) : (l.set i b).map f = l.map f := by
  obtain ⟨hi, rfl⟩ := List.getElem?_eq_some_iff.1 h
  have hi' : i < (l.map f).length := by rwa [List.length_map]
  have hget : (l.map f)[i] = f l[i] := List.getElem_map f
  rw [List.map_set, e, ← hget, List.set_getElem_self]

namespace Draft

/-- Before all edits the rows have the fields of the table. -/
theorem fields_of (t : Table) : (Draft.of t).fields = t.fields := by
  rw [fields, Draft.of, List.map_map]
  exact List.zipIdx_map_fst 0 t.fields

section Look

variable {s : Row → Bool} {rows : List Row} {i : Nat} {r : Row}

theorem firstRow?_eq_some (h : firstRow? s rows = some (i, r)) : rows[i]? = some r ∧ s r := by
  unfold firstRow? at h
  obtain ⟨j, hj, h⟩ := Option.bind_eq_some_iff.1 h
  obtain ⟨x, hx, h⟩ := Option.bind_eq_some_iff.1 h
  cases h
  refine ⟨hx, ?_⟩
  obtain ⟨hlt, hs, -⟩ := List.findIdx?_eq_some_iff_getElem.1 hj
  rw [List.getElem?_eq_getElem hlt] at hx
  cases hx
  exact hs

theorem firstRow?_eq_none : firstRow? s rows = none ↔ ∀ r ∈ rows, s r = false := by
  unfold firstRow?
  cases hi : rows.findIdx? s with
  | none => simpa using List.findIdx?_eq_none_iff.1 hi
  | some i =>
    obtain ⟨hlt, hs, -⟩ := List.findIdx?_eq_some_iff_getElem.1 hi
    simp only [Option.bind_eq_bind, Option.bind_some, List.getElem?_eq_getElem hlt]
    simp only [pure, reduceCtorEq, false_iff, not_forall]
    exact ⟨rows[i], List.getElem_mem hlt, by simp [hs]⟩

end Look

variable {d d' : Draft} {u : Uid} {name : String} {i : Nat} {r : Row} {p : Planned}

/-- The row that is found is bound to the field, or no row is and it is an unbound one of that
name. -/
theorem resolve_eq_ok (h : d.resolve u name = .ok (i, r)) :
    ∃ q, d.rows[i]? = some q ∧ r = { q with uid := some u } ∧
      (q.uid = some u ∨ (∀ x ∈ d.rows, x.uid ≠ some u) ∧ q.uid = none ∧
        Text.sameName q.field.name name) := by
  unfold resolve at h
  simp only at h
  split at h
  · rename_i j q hq
    cases h
    rcases (Option.orElse_eq_some ..).1 hq with hq | ⟨hb, hq⟩
    · obtain ⟨hj, hu⟩ := firstRow?_eq_some hq
      exact ⟨q, hj, rfl, .inl (of_decide_eq_true hu)⟩
    · obtain ⟨hj, hu⟩ := firstRow?_eq_some hq
      rw [Bool.and_eq_true, Option.isNone_iff_eq_none] at hu
      have hb : ∀ x ∈ d.rows, x.uid ≠ some u := by simpa using firstRow?_eq_none.1 hb
      exact ⟨q, hj, rfl, .inr ⟨hb, hu⟩⟩
  · cases h

theorem resolve_ok (hr : r ∈ d.rows)
    (h : r.uid = some u ∨ r.uid = none ∧ Text.sameName r.field.name name) :
    ∃ i q, d.resolve u name = .ok (i, q) := by
  unfold resolve
  simp only
  split
  · exact ⟨_, _, rfl⟩
  · rename_i hn
    obtain ⟨hb, hn⟩ := (Option.orElse_eq_none ..).1 hn
    have hb := firstRow?_eq_none.1 hb r hr
    have hn := firstRow?_eq_none.1 hn r hr
    rcases h with h | ⟨h, h'⟩
    · simp [h] at hb
    · simp [h, h'] at hn

/-- The rules by which a draft takes an edit. -/
inductive Applies (d : Draft) (p : Planned) : Draft → Prop where
  | change {u : Uid} {name n : String} {v : Value} {i : Nat} {r : Row} {f : Field} :
      p.action = .change u name n v →
      d.resolve p.uid p.action.fieldName = .ok (i, r) → r.field.setNamed n v = .ok f →
      Applies d p { d with
        rows := d.rows.set i { r with field := f }
        changed := if p.requirements.main then p.uid :: d.changed else d.changed }
  | remove {u : Uid} {name : String} {i : Nat} {r : Row} : p.action = .remove u name →
      d.resolve p.uid p.action.fieldName = .ok (i, r) →
      Applies d p { d with rows := d.rows.eraseIdx i }
  | insert {u : Uid} {j : Nat} {f : Field} : p.action = .insert u j f →
      Applies d p { d with
        rows := d.rows.insertIdx (min j d.rows.length) { field := f, uid := some p.uid } }
  | move {u : Uid} {name : String} {j i : Nat} {r : Row} : p.action = .move u name j →
      d.resolve p.uid p.action.fieldName = .ok (i, r) →
      Applies d p { d with
        rows := moveWithin (d.rows.set i r) i j
        changed := p.uid :: d.changed
        moved := true }

theorem Applies.of_eq_ok (h : d.apply p = .ok d') : Applies d p d' := by
  have huid : p.uid = p.action.uid := rfl
  cases ha : p.action with
  | change u name n v =>
    simp only [apply, ha] at h
    rw [ha] at huid
    obtain ⟨⟨i, r⟩, hr, h⟩ := bind_eq_ok.1 h
    obtain ⟨f, hf, h⟩ := bind_eq_ok.1 h
    cases h
    have hr : d.resolve p.uid p.action.fieldName = .ok (i, r) := by rwa [huid, ha]
    have happlies := Applies.change ha hr hf
    rwa [huid] at happlies
  | remove u name =>
    simp only [apply, ha] at h
    rw [ha] at huid
    obtain ⟨⟨i, r⟩, hr, h⟩ := bind_eq_ok.1 h
    cases h
    have hr : d.resolve p.uid p.action.fieldName = .ok (i, r) := by rwa [huid, ha]
    exact .remove ha hr
  | insert u j f =>
    simp only [apply, ha] at h
    rw [ha] at huid
    cases h
    have happlies := Applies.insert (d := d) ha
    rwa [huid] at happlies
  | move u name j =>
    simp only [apply, ha] at h
    rw [ha] at huid
    obtain ⟨⟨i, r⟩, hr, h⟩ := bind_eq_ok.1 h
    cases h
    have hr : d.resolve p.uid p.action.fieldName = .ok (i, r) := by rwa [huid, ha]
    have happlies := Applies.move ha hr
    rwa [huid] at happlies

theorem Applies.eq_ok (h : Applies d p d') : d.apply p = .ok d' := by
  have huid : p.uid = p.action.uid := rfl
  cases h with
  | change ha hr hf =>
    rw [huid, ha] at hr ⊢
    rw [apply, ha]
    exact bind_eq_ok.2 ⟨_, hr, bind_eq_ok.2 ⟨_, hf, rfl⟩⟩
  | remove ha hr =>
    rw [huid, ha] at hr
    rw [apply, ha]
    exact bind_eq_ok.2 ⟨_, hr, rfl⟩
  | insert ha =>
    rw [huid, apply, ha]
    rfl
  | move ha hr =>
    rw [huid, ha] at hr ⊢
    rw [apply, ha]
    exact bind_eq_ok.2 ⟨_, hr, rfl⟩

theorem apply_eq_ok : d.apply p = .ok d' ↔ Applies d p d' := ⟨Applies.of_eq_ok, Applies.eq_ok⟩

/-- An edit that its field takes is taken by the draft. -/
theorem apply_of_effect {s : Option Field} (hp : p.action.isInsertion = false)
    (hr : d.resolve p.uid p.action.fieldName = .ok (i, r)) (hi : i < d.rows.length)
    (hs : p.effect (some r.field) = .ok s) :
    ∃ d', d.apply p = .ok d' ∧
      d'.rows.Perm ((s.map fun f => { r with field := f }).toList ++ d.rows.eraseIdx i) := by
  cases ha : p.action with
  | insert => simp [ha, Action.isInsertion] at hp
  | remove u name =>
    rw [Planned.effect_of_removal ha] at hs
    cases hs
    exact ⟨_, apply_eq_ok.2 (.remove ha hr), .refl _⟩
  | move u name j =>
    rw [Planned.effect_of_stays hp (by rw [ha]; rfl),
      Record.applyChange_of_not_change (by rw [ha]; rfl)] at hs
    cases hs
    refine ⟨_, apply_eq_ok.2 (.move ha hr), ?_⟩
    exact (moveWithin_perm ..).trans (List.set_perm_cons_eraseIdx hi r)
  | change u name k v =>
    rw [Planned.effect_of_stays hp (by rw [ha]; rfl), Record.applyChange_of_change ha] at hs
    obtain ⟨f, hf, rfl⟩ := map_eq_ok.1 hs
    refine ⟨_, apply_eq_ok.2 (.change ha hr hf), ?_⟩
    exact List.set_perm_cons_eraseIdx hi _

/-- And one that the draft takes is taken by the field. -/
theorem effect_of_apply (hp : p.action.isInsertion = false)
    (hr : d.resolve p.uid p.action.fieldName = .ok (i, r)) (h : d.apply p = .ok d') :
    ∃ s, p.effect (some r.field) = .ok s := by
  cases apply_eq_ok.1 h with
  | insert ha => simp [ha, Action.isInsertion] at hp
  | remove ha hr' => exact ⟨none, Planned.effect_of_removal ha _⟩
  | move ha hr' =>
    refine ⟨some r.field, ?_⟩
    rw [Planned.effect_of_stays hp (by rw [ha]; rfl),
      Record.applyChange_of_not_change (by rw [ha]; rfl)]
    rfl
  | @change u name k v _ _ f ha hr' hf =>
    have hr := hr.symm.trans hr'
    cases hr
    refine ⟨some f, ?_⟩
    rw [Planned.effect_of_stays hp (by rw [ha]; rfl), Record.applyChange_of_change ha, hf]
    rfl

/-- A change or a move exchanges one row: that of its number or, if there is none, an unbound one of
the name that it uses. -/
theorem exchange_of_apply (hi : p.action.isInsertion = false) (hr : p.action.isRemoval = false)
    (h : d.apply p = .ok d') :
    ∃ q f rest, d.rows.Perm (q :: rest) ∧ d'.rows.Perm (⟨f, some p.uid, q.origin⟩ :: rest) ∧
      Record.applyChange q.field p = .ok f ∧
      (q.uid = some p.uid ∨ (∀ x ∈ d.rows, x.uid ≠ some p.uid) ∧ q.uid = none ∧
        Text.sameName q.field.name p.action.fieldName) := by
  cases apply_eq_ok.1 h with
  | insert ha => simp [ha, Action.isInsertion] at hi
  | remove ha => simp [ha, Action.isRemoval] at hr
  | @change v name n value i r f ha hres hf =>
    obtain ⟨q, hq, rfl, hfound⟩ := resolve_eq_ok hres
    obtain ⟨hlt, rfl⟩ := List.getElem?_eq_some_iff.1 hq
    refine ⟨d.rows[i], f, d.rows.eraseIdx i, (List.getElem_cons_eraseIdx_perm hlt).symm,
      List.set_perm_cons_eraseIdx hlt _, ?_, hfound⟩
    rw [Record.applyChange_of_change ha]
    exact hf
  | @move v name j i r ha hres =>
    obtain ⟨q, hq, rfl, hfound⟩ := resolve_eq_ok hres
    obtain ⟨hlt, rfl⟩ := List.getElem?_eq_some_iff.1 hq
    exact ⟨d.rows[i], _, d.rows.eraseIdx i, (List.getElem_cons_eraseIdx_perm hlt).symm,
      (moveWithin_perm ..).trans (List.set_perm_cons_eraseIdx hlt _),
      Record.applyChange_of_not_change (by rw [ha]; rfl), hfound⟩

/-- A removal takes such a row out. -/
theorem removal_of_apply (hr : p.action.isRemoval) (h : d.apply p = .ok d') :
    ∃ q, d.rows.Perm (q :: d'.rows) ∧
      (q.uid = some p.uid ∨ (∀ x ∈ d.rows, x.uid ≠ some p.uid) ∧ q.uid = none) := by
  cases apply_eq_ok.1 h with
  | change ha | insert ha | move ha => simp [ha, Action.isRemoval] at hr
  | @remove u name i r ha hres =>
    obtain ⟨q, hq, rfl, hfound⟩ := resolve_eq_ok hres
    obtain ⟨hlt, rfl⟩ := List.getElem?_eq_some_iff.1 hq
    exact ⟨d.rows[i], (List.getElem_cons_eraseIdx_perm hlt).symm,
      hfound.imp_right fun hnone => ⟨hnone.1, hnone.2.1⟩⟩

/-- An insertion leaves the rows as they are and puts a bound one among them. -/
theorem insertion_of_apply (hi : p.action.isInsertion) (h : d.apply p = .ok d') :
    ∃ u j f, p.action = .insert u j f ∧
      d'.rows.Perm ({ field := f, uid := some p.uid } :: d.rows) := by
  cases apply_eq_ok.1 h with
  | change ha | remove ha | move ha => simp [ha, Action.isInsertion] at hi
  | @insert u j f ha => exact ⟨u, j, f, ha, List.perm_insertIdx _ _ (Nat.min_le_right ..)⟩

theorem apply_insertion {u : Uid} {j : Nat} {f : Field} (ha : p.action = .insert u j f) :
    ∃ d', d.apply p = .ok d' ∧ d'.rows.Perm ({ field := f, uid := some p.uid } :: d.rows) := by
  refine ⟨_, apply_eq_ok.2 (.insert ha), ?_⟩
  exact List.perm_insertIdx _ _ (Nat.min_le_right ..)

/-- A draft is finished when no name is used twice. -/
theorem finish_eq_ok : d.finish = .ok d' ↔
    d.table.NamesDistinct ∧ d' = { d with indexes := d.finalIndexes } := by
  rw [← Table.duplicateFieldName?_eq_none]
  unfold finish
  simp only
  have hfields : (table { d with indexes := d.finalIndexes }).duplicateFieldName? =
      d.table.duplicateFieldName? := rfl
  rw [hfields]
  cases d.table.duplicateFieldName? with
  | none => simp [eq_comm]
  | some f => simp

end Draft

end TableAlteration
