import TableAlteration.Edit.Draft
import TableAlteration.Proofs.Edit.Changes
import TableAlteration.Proofs.Edit.Records

namespace TableAlteration

/-- What an edit makes of its own field; `none` stands for a field that is not there. -/
def Planned.effect (s : Option Field) (p : Planned) : Except AlterError (Option Field) :=
  match p.action, s with
  | .insert _ _ d, none => .ok (some d)
  | .remove .., some _ => .ok none
  | .change .., some f | .move .., some f => (Record.applyChange f p).map some
  | a, _ => .error (.fieldNotFound "" a.fieldName)

section Homes

variable (t : Table) (home : Uid → Option Nat)

/-- The field before its edits; `home` tells which column of the table it has. -/
def start (u : Uid) : Option Field := (home u).bind fun i => t.fields[i]?

def originOf (u : Uid) : Option Origin :=
  (home u).bind fun i => t.fields[i]?.map fun f => ⟨f.name, i⟩

/-- The field after those of the edits that are its own. -/
def fate (l : List Planned) (u : Uid) : Except AlterError (Option Field) :=
  (editsOf u l).foldlM Planned.effect (start t home u)

end Homes

variable {t : Table} {home : Uid → Option Nat} {k l : List Planned} {p : Planned} {u : Uid}

theorem fate_of_no_edits (h : editsOf u l = []) : fate t home l u = .ok (start t home u) := by
  rw [fate, h]
  rfl

theorem editsOf_snoc_of_ne (h : u ≠ p.uid) : editsOf u (k ++ [p]) = editsOf u k := by
  rw [editsOf_append, editsOf_cons, if_neg (fun e => h e.symm)]
  exact List.append_nil _

theorem editsOf_snoc_self : editsOf p.uid (k ++ [p]) = editsOf p.uid k ++ [p] := by
  rw [editsOf_append, editsOf_cons, if_pos rfl]
  rfl

theorem fate_snoc_of_ne (h : u ≠ p.uid) : fate t home (k ++ [p]) u = fate t home k u := by
  rw [fate, editsOf_snoc_of_ne h]
  rfl

theorem fate_snoc_self {s s' : Option Field} (h : fate t home k p.uid = .ok s)
    (hs : p.effect s = .ok s') : fate t home (k ++ [p]) p.uid = .ok s' := by
  rw [fate, editsOf_snoc_self]
  exact foldlM_append_eq_ok.2 ⟨s, h, foldlM_cons_eq_ok.2 ⟨s', hs, rfl⟩⟩

theorem effect_of_fates {s s' : Option Field} (h : fate t home k p.uid = .ok s)
    (h' : fate t home (k ++ [p]) p.uid = .ok s') : p.effect s = .ok s' := by
  rw [fate, editsOf_snoc_self] at h'
  obtain ⟨s1, h1, h2⟩ := foldlM_append_eq_ok.1 h'
  rw [fate, h1] at h
  cases h
  obtain ⟨s2, he, e⟩ := foldlM_cons_eq_ok.1 h2
  cases e
  exact he

theorem fate_before {s : Option Field} (h : fate t home (k ++ l) u = .ok s) :
    ∃ s', fate t home k u = .ok s' := by
  rw [fate, editsOf_append] at h
  obtain ⟨s', hs, -⟩ := foldlM_append_eq_ok.1 h
  exact ⟨s', hs⟩

theorem start_of_home_eq_none (h : home u = none) : start t home u = none := by simp [start, h]

theorem originOf_of_home_eq_none (h : home u = none) : originOf t home u = none := by
  simp [originOf, h]

theorem originOf_eq_some {o : Origin} (h : originOf t home u = some o) :
    home u = some o.position := by
  obtain ⟨i, hi, h⟩ := Option.bind_eq_some_iff.1 h
  obtain ⟨f, -, rfl⟩ := Option.map_eq_some_iff.1 h
  exact hi

/-- Edits of a field that is there: it is not inserted, and nothing follows its removal. -/
def Lives : List Planned → Prop
  | [] => True
  | p :: rest => p.action.isInsertion = false ∧ (p.action.isRemoval → rest = []) ∧ Lives rest

theorem Lives.before {k l : List Planned} {p : Planned} (h : Lives (k ++ p :: l)) :
    p.action.isInsertion = false ∧
      ∀ q ∈ k, q.action.isInsertion = false ∧ q.action.isRemoval = false := by
  induction k with
  | nil => exact ⟨h.1, fun q hq => by cases hq⟩
  | cons a k ih =>
    obtain ⟨h1, h2, h3⟩ := h
    obtain ⟨hp, hk⟩ := ih h3
    refine ⟨hp, fun q hq => ?_⟩
    rcases List.mem_cons.1 hq with rfl | hq
    · refine ⟨h1, ?_⟩
      cases hr : q.action.isRemoval with
      | false => rfl
      | true => simpa using h2 hr
    · exact hk q hq

theorem Planned.effect_of_insertion {i : Nat} {d : Field} (ha : p.action = .insert u i d) :
    p.effect none = .ok (some d) := by
  unfold effect
  rw [ha]

theorem Planned.effect_of_removal {name : String} (ha : p.action = .remove u name) (f : Field) :
    p.effect (some f) = .ok none := by
  unfold effect
  rw [ha]

theorem Planned.effect_of_stays (hi : p.action.isInsertion = false)
    (hr : p.action.isRemoval = false) (f : Field) :
    p.effect (some f) = (Record.applyChange f p).map some := by
  unfold effect
  cases ha : p.action with
  | insert => simp [ha, Action.isInsertion] at hi
  | remove => simp [ha, Action.isRemoval] at hr
  | _ => rfl

/-- Without insertions and removals the field's own edits are its changes. -/
theorem effects_of_stays
    (h : ∀ q ∈ l, q.action.isInsertion = false ∧ q.action.isRemoval = false) (f : Field) :
    l.foldlM Planned.effect (some f) = (l.foldlM Record.applyChange f).map some := by
  induction l generalizing f with
  | nil => rfl
  | cons p l ih =>
    obtain ⟨hi, hr⟩ := h p List.mem_cons_self
    rw [List.foldlM_cons, List.foldlM_cons, Planned.effect_of_stays hi hr]
    cases Record.applyChange f p with
    | error e => rfl
    | ok g => exact ih (fun q hq => h q (List.mem_cons_of_mem p hq)) g

/-- While a field lives it is there. -/
theorem effects_of_lives {f : Field} {s : Option Field} (h : Lives (k ++ p :: l))
    (hk : k.foldlM Planned.effect (some f) = .ok s) : ∃ g, s = some g := by
  rw [effects_of_stays h.before.2] at hk
  obtain ⟨g, -, rfl⟩ := map_eq_ok.1 hk
  exact ⟨g, rfl⟩

end TableAlteration
