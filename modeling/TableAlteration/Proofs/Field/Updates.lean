import Mathlib.Data.List.Basic
import TableAlteration.Proofs.Field.Names

namespace TableAlteration.Field

theorem run_update (f : Field) (v : Value) (p : Property) : (update v p).run f =
    match f.set v p with
    | .ok g => .ok () g
    | .error reason => .error reason f := by
  cases p with
  | name =>
    unfold update set
    cases v.asName <;> rfl
  | type =>
    unfold update set
    cases v.asType with
    | error reason => rfl
    | ok t =>
      cases ha : t.allowsAutoIncrement <;> cases hd : t.hasDecimalPlaces <;>
        simp [liftExcept, withType, ha, hd]
  | caption | description =>
    unfold update set
    cases v.asOptionalText <;> rfl
  | maxLength | precision | defaultWidth =>
    unfold update set
    cases v.asOptionalCount <;> rfl
  | unsigned | unique | notNull | allowEmpty | indexed =>
    unfold update set
    cases v.asFlag <;> rfl
  | defaultValue => rfl
  | primaryKey =>
    unfold update set
    cases v.asFlag with
    | error reason => rfl
    | ok on => cases on <;> rfl
  | autoIncrement =>
    unfold update set
    cases v.asFlag with
    | error reason => rfl
    | ok on =>
      cases on with
      | false => rfl
      | true =>
        cases ha : f.type.allowsAutoIncrement with
        | true => simp [liftExcept, ha]
        | false =>
          simp only [liftExcept, EStateM.run_bind, EStateM.run_pure, EStateM.run_get, ha]
          rfl
  | visibleDecimalPlaces =>
    unfold update set
    cases hd : f.type.hasDecimalPlaces with
    | false => simp [hd]
    | true =>
      cases v.asOptionalPlaces with
      | ok n => simp [liftExcept, hd]
      | error reason =>
        simp only [EStateM.run_bind, EStateM.run_get, hd]
        rfl
  | lookup l =>
    unfold update set
    cases v.isNull <;> rfl

theorem run_updateNamed (f : Field) (s : String) (v : Value) : (updateNamed s v).run f =
    match Property.ofName? s with
    | none => .error (.unknownProperty s) f
    | some p =>
      match f.set v p with
      | .ok g => .ok () g
      | .error reason => .error (.invalidPropertyValue s v reason) f := by
  unfold updateNamed
  rw [Property.ofKey?_fold]
  cases Property.ofName? s with
  | none => rfl
  | some p =>
    simp only [EStateM.run_adaptExcept, run_update]
    cases f.set v p <;> rfl

theorem updateNamed_eq_ok {f g : Field} {s : String} {v : Value} :
    (updateNamed s v).run f = .ok () g ↔ ∃ p, Property.ofName? s = some p ∧ f.set v p = .ok g := by
  rw [run_updateNamed]
  cases Property.ofName? s with
  | none => simp
  | some p => cases hset : f.set v p <;> simp [hset]

theorem setNamed_eq (f : Field) (s : String) (v : Value) : f.setNamed s v =
    match Property.ofName? s with
    | none => .error (.unknownProperty s)
    | some p =>
      match f.set v p with
      | .ok g => .ok g
      | .error reason => .error (.invalidPropertyValue s v reason) := by
  unfold setNamed
  rw [run_updateNamed]
  cases Property.ofName? s with
  | none => rfl
  | some p => cases h : f.set v p <;> simp [h]

/-- No change by that name is refused for want of the property. -/
def Knows (s : String) : Prop :=
  ∀ (f g : Field) (v : Value) (t : String), (updateNamed s v).run f ≠ .error (.unknownProperty t) g

theorem knows_iff {s : String} : Knows s ↔ ∃ p, Property.ofName? s = some p := by
  cases hs : Property.ofName? s with
  | none =>
    refine iff_of_false (fun h => ?_) (by simp)
    refine h { name := "", type := .byte } { name := "", type := .byte } .null s ?_
    rw [run_updateNamed, hs]
  | some p =>
    refine iff_of_true (fun f g v t h => ?_) ⟨p, rfl⟩
    rw [run_updateNamed, hs] at h
    cases hset : f.set v p <;> simp [hset] at h

/-- Both changes succeed or both are refused, and they leave the same field. -/
def EndAlike (r r' : EStateM.Result AlterError Field Unit) : Prop :=
  match r, r' with
  | .ok () f, .ok () g => f = g
  | .error _ f, .error _ g => f = g
  | _, _ => False

theorem endAlike_of_fold_eq {s t : String} (h : Text.fold s = Text.fold t) (f : Field)
    (v : Value) : EndAlike ((updateNamed s v).run f) ((updateNamed t v).run f) := by
  rw [run_updateNamed, run_updateNamed, Property.ofName?_congr h]
  cases Property.ofName? t with
  | none => rfl
  | some p => cases hset : f.set v p <;> simp [EndAlike, hset]

/-- What has requirements can be set, and what has none is unknown to both tables; names that differ
in case only are names of the same property in both. -/
theorem names_agree (s : String) :
    ((∃ r, classify s = .ok r) ↔ Knows s) ∧
    (¬Knows s → classify s = .error (.unknownProperty s) ∧
      ∀ f v, (updateNamed s v).run f = .error (.unknownProperty s) f) ∧
    ∀ t, Text.sameName s t →
      (∀ r, classify s = .ok r ↔ classify t = .ok r) ∧
      ∀ f v, EndAlike ((updateNamed s v).run f) ((updateNamed t v).run f) := by
  refine ⟨?_, fun h => ?_, fun t h => ?_⟩
  · rw [knows_iff, classify_eq]
    cases Property.ofName? s <;> simp
  · have hs : Property.ofName? s = none := by
      rw [Option.eq_none_iff_forall_ne_some]
      exact fun p hp => h (knows_iff.2 ⟨p, hp⟩)
    refine ⟨?_, fun f v => ?_⟩
    · rw [classify_eq, hs]
    · rw [run_updateNamed, hs]
  · have hfold := Text.sameName_iff.1 h
    refine ⟨fun r => ?_, endAlike_of_fold_eq hfold⟩
    rw [classify_eq, classify_eq, Property.ofName?_congr hfold]
    cases Property.ofName? t <;> simp

/-- A look-up property in two spellings, and a name that neither table has. -/
theorem names_agree_of_row_source :
    Knows "rowSource" ∧ ¬Knows "colour" ∧
    (∀ r, classify "rowSource" = .ok r ↔ classify "ROWSOURCE" = .ok r) ∧
    classify "colour" = .error (.unknownProperty "colour") := by
  have hcolour : ¬Knows "colour" := by
    rw [knows_iff, show Property.ofName? "colour" = none by decide]
    simp
  exact ⟨(names_agree "rowSource").1.1 ⟨_, rfl⟩, hcolour,
    ((names_agree "rowSource").2.2 "ROWSOURCE" (by decide)).1,
    ((names_agree "colour").2.1 hcolour).1⟩

end TableAlteration.Field
