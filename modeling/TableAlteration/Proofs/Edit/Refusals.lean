import TableAlteration.Edit.Draft
import TableAlteration.Edit.Reduction
import TableAlteration.Proofs.Field.Updates

namespace TableAlteration

/-- The rebuild has not begun if this fails. -/
def NoRebuild {α : Type} (x : Except AlterError α) : Prop :=
  ∀ e, x = .error e → e.isRebuildFailure = false

namespace NoRebuild

variable {α β : Type}

theorem ok (a : α) : NoRebuild (.ok a) := fun _ h => by cases h

theorem error {e : AlterError} (h : e.isRebuildFailure = false) :
    NoRebuild (.error e : Except AlterError α) := by
  intro e' h'
  cases h'
  exact h

theorem bind {x : Except AlterError α} {f : α → Except AlterError β} (hx : NoRebuild x)
    (hf : ∀ a, NoRebuild (f a)) : NoRebuild (x >>= f) := by
  cases x with
  | error e => exact fun e' h' => hx e' (by cases h'; rfl)
  | ok a => exact hf a

theorem foldlM {f : β → α → Except AlterError β} (hf : ∀ b a, NoRebuild (f b a)) (l : List α)
    (b : β) : NoRebuild (l.foldlM f b) := by
  induction l generalizing b with
  | nil => exact ok b
  | cons a l ih => exact bind (hf b a) ih

end NoRebuild

theorem Field.setNamed_noRebuild (f : Field) (s : String) (v : Value) :
    NoRebuild (f.setNamed s v) := by
  rw [setNamed_eq]
  split
  · exact .error rfl
  · split
    · exact .ok _
    · exact .error rfl

theorem planFrom_noRebuild (n : Nat) (actions : List Action) : NoRebuild (planFrom n actions) := by
  induction actions generalizing n with
  | nil => exact .ok []
  | cons a rest ih =>
    refine .bind ?_ fun p => .bind (ih (n + 1)) fun ps => .ok _
    unfold Planned.of
    split
    · exact .ok _
    · rename_i e he
      apply NoRebuild.error
      unfold Action.requirements at he
      split at he
      · rw [classify_eq] at he
        split at he
        · cases he
        · cases he
          rfl
      all_goals cases he

theorem Record.absorb_noRebuild (r : Record) (p : Planned) : NoRebuild (r.absorb p) := by
  unfold absorb
  split
  · split
    · exact .ok _
    · split <;> exact .ok _
  · exact .ok _
  · split
    · exact .ok _
    · refine .bind (.foldlM (fun f q => ?_) _ _) fun g => .ok _
      unfold applyChange
      split
      · exact Field.setNamed_noRebuild _ _ _
      · exact .ok _
  · split <;> exact .ok _

theorem Reduction.of_noRebuild (l : List Planned) : NoRebuild (Reduction.of l) := by
  refine .bind (.foldlM (fun m p => ?_) _ _) fun m => .ok _
  exact .bind (Record.absorb_noRebuild _ _) fun r => .ok _

namespace Draft

theorem resolve_noRebuild (d : Draft) (u : Uid) (name : String) :
    NoRebuild (d.resolve u name) := by
  unfold resolve
  simp only
  split
  · exact .ok _
  · exact .error rfl

theorem apply_noRebuild (d : Draft) (p : Planned) : NoRebuild (d.apply p) := by
  unfold apply
  split
  · exact .bind (resolve_noRebuild _ _ _) fun _ =>
      .bind (Field.setNamed_noRebuild _ _ _) fun _ => .ok _
  · exact .bind (resolve_noRebuild _ _ _) fun _ => .ok _
  · exact .ok _
  · exact .bind (resolve_noRebuild _ _ _) fun _ => .ok _

theorem applyAll_noRebuild (d : Draft) (l : List Planned) : NoRebuild (d.applyAll l) :=
  .foldlM (fun d p => d.apply_noRebuild p) l d

theorem finish_noRebuild (d : Draft) : NoRebuild d.finish := by
  unfold finish
  simp only
  split
  · exact .error rfl
  · exact .ok _

end Draft

end TableAlteration
