import TableAlteration.Proofs.Edit.Fates
import TableAlteration.Proofs.Edit.Independence

namespace TableAlteration

/-- How the field is called after the edit. -/
def Action.nameAfter (name : String) (a : Action) : String := a.newName?.getD name

/-- Each edit names its field by the name it has, whatever the case; the field is not inserted, and
nothing follows its removal. -/
def Follows (name : String) : List Action → Prop
  | [] => True
  | a :: rest =>
    match a with
    | .insert .. => False
    | .remove _ f => Text.sameName f name ∧ rest = []
    | .change _ f _ _ | .move _ f _ => Text.sameName f name ∧ Follows (a.nameAfter name) rest

instance Follows.decidable : (name : String) → (l : List Action) → Decidable (Follows name l)
  | _, [] => .isTrue trivial
  | _, .insert .. :: _ => .isFalse id
  | name, .remove _ f :: rest =>
    inferInstanceAs (Decidable (Text.sameName f name ∧ rest = []))
  | name, .change u f n v :: rest =>
    have := Follows.decidable ((Action.change u f n v).nameAfter name) rest
    inferInstanceAs (Decidable (Text.sameName f name ∧ Follows _ rest))
  | name, .move u f i :: rest =>
    have := Follows.decidable ((Action.move u f i).nameAfter name) rest
    inferInstanceAs (Decidable (Text.sameName f name ∧ Follows _ rest))

theorem Follows.head {name : String} {a : Action} {rest : List Action}
    (h : Follows name (a :: rest)) : Text.sameName a.fieldName name := by
  cases a with
  | insert => exact h.elim
  | _ => exact h.1

theorem Follows.tail {name : String} {a : Action} {rest : List Action}
    (h : Follows name (a :: rest)) : Follows (a.nameAfter name) rest := by
  cases a with
  | insert => exact h.elim
  | remove u f =>
    rw [h.2]
    trivial
  | _ => exact h.2

theorem Follows.lives {name : String} {h : List Planned}
    (hf : Follows name (h.map Planned.action)) : Lives h := by
  induction h generalizing name with
  | nil => trivial
  | cons p h ih =>
    refine ⟨?_, ?_, ih hf.tail⟩
    · cases hp : p.action with
      | insert u i d =>
        rw [List.map_cons, hp] at hf
        exact hf.elim
      | _ => rfl
    · intro hr
      cases hp : p.action with
      | remove u f =>
        rw [List.map_cons, hp] at hf
        exact List.map_eq_nil_iff.1 hf.2
      | _ => simp [hp, Action.isRemoval] at hr

theorem Action.nameAfter_of_not_rename {a : Action} (h : a.isRename = false) (name : String) :
    a.nameAfter name = name := by
  cases a with
  | change u f p v =>
    rw [isRename] at h
    simp [nameAfter, newName?, h]
  | _ => rfl

theorem Action.fieldName_withFieldName (a : Action) (n : String) :
    (a.withFieldName n).fieldName = n := by cases a <;> rfl

namespace Record

theorem fieldName_of_mem_withFieldName {r : Record} {name : String} {q : Planned}
    (h : q ∈ (r.withFieldName name).toList) (hr : r.insertion = none) :
    q.action.fieldName = name := by
  simp only [mem_toList, withFieldName, Dict.get?_map, Option.map_eq_some_iff, hr] at h
  rcases h with ⟨s, hs, rfl⟩ | h | ⟨s, hs, rfl⟩ | ⟨k, s, hs, rfl⟩ | ⟨s, hs, rfl⟩
  · exact Action.fieldName_withFieldName ..
  · cases h
  · exact Action.fieldName_withFieldName ..
  · exact Action.fieldName_withFieldName ..
  · exact Action.fieldName_withFieldName ..

theorem named_of_history {h : List Planned} {r : Record} {name : String}
    (hf : Follows name (h.map Planned.action)) (hr : ofHistory h = .ok r) :
    r.insertion = none ∧ ∀ p ∈ r.toList, Text.sameName p.action.fieldName name := by
  induction h generalizing r name with
  | nil =>
    cases hr
    exact ⟨rfl, fun p hp => by cases hp⟩
  | cons p h ih =>
    obtain ⟨s, hs, ha⟩ := ofHistory_cons.1 hr
    obtain ⟨hi, hn⟩ := ih hf.tail hs
    have hp := hf.head
    have hone : ∀ q, q = p ∨ q ∈ s.toList → p.action.isRename = false →
        Text.sameName q.action.fieldName name := by
      intro q hq hno
      rw [Action.nameAfter_of_not_rename hno] at hn
      rcases hq with rfl | hq
      · exact hp
      · exact hn q hq
    cases ha with
    | rename ha hs1 h1 h2 =>
      rw [ha] at hp
      refine ⟨hi, fun q hq => ?_⟩
      rwa [fieldName_of_mem_withFieldName hq hi]
    | merge ha hs1 h1 =>
      rw [ha] at hp
      refine ⟨hi, fun q hq => ?_⟩
      rwa [fieldName_of_mem_withFieldName hq hi]
    | change ha hs1 h1 h2 =>
      have hno : p.action.isRename = false := by simpa [ha, Action.isRename] using hs1
      exact ⟨hi, fun q hq => hone q (eq_or_mem_of_property hq) hno⟩
    | overwritten ha hs1 h1 =>
      have hno : p.action.isRename = false := by simpa [ha, Action.isRename] using hs1
      exact ⟨hi, fun q hq => hone q (.inr hq) hno⟩
    | superseded ha h1 => exact ⟨hi, fun q hq => hone q (.inr hq) (by rw [ha]; rfl)⟩
    | remove ha => exact ⟨hi, fun q hq => hone q (eq_or_mem_of_removal hq) (by rw [ha]; rfl)⟩
    | cancel ha | insert ha =>
      rw [List.map_cons, ha] at hf
      exact hf.elim
    | move ha h1 h2 =>
      exact ⟨hi, fun q hq => hone q (eq_or_mem_of_movement hq) (by rw [ha]; rfl)⟩

theorem insertion_of_lives {h : List Planned} {r : Record} (hl : Lives h)
    (hr : ofHistory h = .ok r) : r.insertion = none := by
  induction h generalizing r with
  | nil =>
    cases hr
    rfl
  | cons p h ih =>
    obtain ⟨s, hs, ha⟩ := ofHistory_cons.1 hr
    have hnone := ih hl.2.2 hs
    cases ha with
    | cancel ha | insert ha =>
      have hp := hl.1
      simp [ha, Action.isInsertion] at hp
    | _ => exact hnone

/-- Of a field that is removed, the removal alone is recorded. -/
theorem removed_of_lives {h : List Planned} {r : Record} (hl : Lives h) (hr : ofHistory h = .ok r)
    (hrem : ∃ p ∈ h, p.action.isRemoval) : ∃ q, r = { removal := some q } := by
  induction h generalizing r with
  | nil => simp at hrem
  | cons p h ih =>
    obtain ⟨s, hs, ha⟩ := ofHistory_cons.1 hr
    obtain ⟨hins, hend, hl⟩ := hl
    cases hp : p.action with
    | remove u f =>
      have hnil : h = [] := hend (by rw [hp]; rfl)
      subst hnil
      cases hs
      have h' := absorb_eq_ok.2 ha
      simp only [absorb, hp] at h'
      cases h'
      exact ⟨p, rfl⟩
    | insert u i d =>
      rw [hp] at hins
      cases hins
    | _ =>
      have hrest : ∃ p ∈ h, p.action.isRemoval := by
        obtain ⟨q, hq, e⟩ := hrem
        rcases List.mem_cons.1 hq with rfl | hq
        · rw [hp] at e
          cases e
        · exact ⟨q, hq, e⟩
      obtain ⟨q, rfl⟩ := ih hl hs hrest
      cases ha with
      | rename ha hs1 h1 h2 => cases h2
      | change ha hs1 h1 h2 => cases h1
      | move ha h1 h2 => cases h1
      | merge => exact ⟨_, rfl⟩
      | overwritten | superseded => exact ⟨q, rfl⟩
      | remove ha | cancel ha | insert ha =>
        rw [hp] at ha
        cases ha

end Record

end TableAlteration
