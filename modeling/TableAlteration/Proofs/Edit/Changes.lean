import TableAlteration.Proofs.Edit.Order
import TableAlteration.Proofs.Field.Overwriting

namespace TableAlteration

theorem Property.standsAlone_iff {s : String} {p : Property} (h : ofName? s = some p) :
    p.standsAlone = false ↔ Text.fold s = "type" ∨ Text.fold s = "primarykey" := by
  rw [← fold_written h]
  cases p with
  | lookup l => cases l <;> decide
  | _ => decide

def Action.isChange : Action → Bool
  | .change .. => true
  | _ => false

def Action.isInsertion : Action → Bool
  | .insert .. => true
  | _ => false

def Action.isRemoval : Action → Bool
  | .remove .. => true
  | _ => false

namespace Record

theorem applyChange_of_change {f : Field} {p : Planned} {u n s v}
    (h : p.action = .change u n s v) : applyChange f p = f.setNamed s v := by
  rw [applyChange, h]

theorem applyChange_of_not_change {f : Field} {p : Planned} (h : p.action.isChange = false) :
    applyChange f p = .ok f := by
  unfold applyChange
  cases ha : p.action with
  | change => simp [ha, Action.isChange] at h
  | _ => rfl

/-- A successful change sets a property; other edits leave the definition as it is. -/
theorem applyChange_eq_ok {f g : Field} {p : Planned} (h : applyChange f p = .ok g) :
    (p.action.isChange = false ∧ g = f) ∨
      ∃ u n s v q, p.action = .change u n s v ∧ Property.ofName? s = some q ∧
        f.set v q = .ok g := by
  cases ha : p.action with
  | change u n s v =>
    rw [applyChange_of_change ha] at h
    obtain ⟨q, hq, hg⟩ := Field.setNamed_eq_ok.1 h
    exact .inr ⟨u, n, s, v, q, rfl, hq, hg⟩
  | _ =>
    have hn : p.action.isChange = false := by rw [ha]; rfl
    rw [applyChange_of_not_change hn] at h
    cases h
    exact .inl ⟨rfl, rfl⟩

section Runs

variable {f g f' : Field} {l : List Planned} {p : Property}

theorem applyChange_of_forget_eq (h : p.standsAlone) (e : f.forget p = g.forget p) {c : Planned}
    (hf : applyChange f c = .ok f') :
    ∃ g', applyChange g c = .ok g' ∧ f'.forget p = g'.forget p := by
  rcases applyChange_eq_ok hf with ⟨hc, rfl⟩ | ⟨u, n, s, v, q, ha, hq, hset⟩
  · exact ⟨g, applyChange_of_not_change hc, e⟩
  · obtain ⟨g', hg, e'⟩ := Field.set_of_forget_eq h e hset
    refine ⟨g', ?_, e'⟩
    rw [applyChange_of_change ha]
    exact Field.setNamed_eq_ok.2 ⟨q, hq, hg⟩

/-- Definitions that differ in a property only lead to the same one if the run sets it. -/
theorem changes_overwritten (h : p.standsAlone) (e : f.forget p = g.forget p) {c : Planned}
    {u n s v} (hc : c ∈ l) (ha : c.action = .change u n s v) (hs : Property.ofName? s = some p)
    (hl : l.foldlM applyChange f = .ok f') : l.foldlM applyChange g = .ok f' := by
  induction l generalizing f g with
  | nil => cases hc
  | cons d l ih =>
    obtain ⟨f1, h1, h2⟩ := foldlM_cons_eq_ok.1 hl
    rcases List.mem_cons.1 hc with rfl | hc
    · refine foldlM_cons_eq_ok.2 ⟨f1, ?_, h2⟩
      rw [applyChange_of_change ha] at h1 ⊢
      obtain ⟨q, hq, hset⟩ := Field.setNamed_eq_ok.1 h1
      rw [hs] at hq
      cases hq
      refine Field.setNamed_eq_ok.2 ⟨p, hs, ?_⟩
      rw [← Field.set_eq_of_forget_eq h e v, hset]
    · obtain ⟨g1, hg, e1⟩ := applyChange_of_forget_eq h e h1
      exact foldlM_cons_eq_ok.2 ⟨g1, hg, ih e1 hc h2⟩

theorem isRename_iff {a : Action} :
    a.isRename ↔ ∃ u n s v, a = .change u n s v ∧ Property.ofName? s = some .name := by
  cases a with
  | change u n s v => simp [Action.isRename, Property.ofName?_eq_name_iff]
  | _ => simp [Action.isRename]

theorem name_of_rename {c : Planned} (hc : c.action.isRename) (h : applyChange f c = .ok g) :
    c.action.newName? = some g.name := by
  obtain ⟨u, n, s, v, ha, hs⟩ := isRename_iff.1 hc
  rw [applyChange_of_change ha] at h
  obtain ⟨q, hq, hset⟩ := Field.setNamed_eq_ok.1 h
  rw [hs] at hq
  cases hq
  obtain ⟨t, ht, e⟩ := bind_eq_ok.1 hset
  cases e
  rw [ha, Action.newName?, if_pos (Property.ofName?_eq_name_iff.1 hs)]
  unfold Value.asName at ht
  split at ht
  · rename_i hv
    cases ht
    exact (Option.filter_eq_some_iff.1 hv).1
  · cases ht

theorem name_of_not_rename {c : Planned} (hc : c.action.isRename = false)
    (h : applyChange f c = .ok g) : g.name = f.name := by
  rcases applyChange_eq_ok h with ⟨-, rfl⟩ | ⟨u, n, s, v, q, ha, hq, hset⟩
  · rfl
  · refine Field.name_of_alters ?_ (Field.alters_of_set hset)
    intro h
    subst h
    rw [isRename_iff.2 ⟨u, n, s, v, ha, hq⟩] at hc
    cases hc

/-- Definitions that differ in their names only still do so after a run and the same run without
its renames, which keeps the name. -/
theorem changes_without_renames (e : f.forget .name = g.forget .name)
    (hl : l.foldlM applyChange f = .ok f') :
    ∃ g', (l.filter fun c => !c.action.isRename).foldlM applyChange g = .ok g' ∧
      f'.forget .name = g'.forget .name ∧ g'.name = g.name := by
  induction l generalizing f g with
  | nil =>
    cases hl
    exact ⟨g, rfl, e, rfl⟩
  | cons d l ih =>
    obtain ⟨f1, h1, h2⟩ := foldlM_cons_eq_ok.1 hl
    rw [List.filter_cons]
    by_cases hd : d.action.isRename
    · rw [if_neg (by simp [hd])]
      obtain ⟨u, n, s, v, ha, hs⟩ := isRename_iff.1 hd
      rw [applyChange_of_change ha] at h1
      obtain ⟨q, hq, hset⟩ := Field.setNamed_eq_ok.1 h1
      rw [hs] at hq
      cases hq
      refine ih ?_ h2
      rw [Field.forget_of_alters rfl (Field.alters_of_set hset), e]
    · rw [if_pos (by simp [hd])]
      obtain ⟨g1, hg, e1⟩ := applyChange_of_forget_eq rfl e h1
      have hname := name_of_not_rename (by simpa using hd) hg
      obtain ⟨g', hg', e', hn⟩ := ih e1 h2
      exact ⟨g', foldlM_cons_eq_ok.2 ⟨g1, hg, hg'⟩, e', hn.trans hname⟩

/-- If all renames have the same target, no other new name comes out. -/
theorem name_after_changes {n : String}
    (h : ∀ c ∈ l, c.action.isRename → c.action.newName? = some n)
    (hl : l.foldlM applyChange f = .ok g) : g.name = n ∨ g.name = f.name := by
  induction l generalizing f with
  | nil =>
    cases hl
    exact .inr rfl
  | cons c l ih =>
    obtain ⟨f1, h1, h2⟩ := foldlM_cons_eq_ok.1 hl
    have hf1 : f1.name = n ∨ f1.name = f.name := by
      by_cases hc : c.action.isRename
      · left
        have h' := name_of_rename hc h1
        rw [h c List.mem_cons_self hc] at h'
        exact (Option.some.inj h').symm
      · right
        exact name_of_not_rename (by simpa using hc) h1
    rcases ih (fun d hd => h d (List.mem_cons_of_mem c hd)) h2 with e | e
    · exact .inl e
    · rwa [e]

theorem foldlM_filter_isChange (f : Field) (l : List Planned) :
    (l.filter fun c => c.action.isChange).foldlM applyChange f = l.foldlM applyChange f := by
  induction l generalizing f with
  | nil => rfl
  | cons c l ih =>
    rw [List.filter_cons]
    split
    · rw [List.foldlM_cons, List.foldlM_cons]
      exact bind_congr fun g => ih g
    · rename_i h
      rw [List.foldlM_cons, applyChange_of_not_change (by simpa using h)]
      exact ih f

end Runs

end Record

end TableAlteration
