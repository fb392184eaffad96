import TableAlteration.Proofs.Edit.Ends
import TableAlteration.Proofs.Edit.Places

namespace TableAlteration

/-- How the field is called after the edits. -/
def nameAfterAll (name : String) (l : List Action) : String :=
  l.foldl (fun n a => a.nameAfter n) name

/-- Each edit names the field exactly as it is called then; the field is not inserted, and nothing
follows its removal. -/
def Narrates (name : String) : List Action → Prop
  | [] => True
  | a :: rest => a.isInsertion = false ∧ a.fieldName = name ∧ (a.isRemoval → rest = []) ∧
      Narrates (a.nameAfter name) rest

instance Narrates.decidable : (name : String) → (l : List Action) → Decidable (Narrates name l)
  | _, [] => .isTrue trivial
  | name, a :: rest =>
    have := Narrates.decidable (a.nameAfter name) rest
    inferInstanceAs (Decidable (_ ∧ _ ∧ _ ∧ _))

/-- The edits of one field, which may be inserted first; then it is called at the start as it is
inserted. -/
def IsHistory (start : String) : List Action → Prop
  | .insert _ _ d :: rest => d.name = start ∧ Narrates start rest
  | l => Narrates start l

instance IsHistory.decidable (start : String) : (l : List Action) → Decidable (IsHistory start l)
  | .insert _ _ d :: rest => inferInstanceAs (Decidable (d.name = start ∧ Narrates start rest))
  | [] => .isTrue trivial
  | .change u f n v :: rest => Narrates.decidable start (.change u f n v :: rest)
  | .remove u f :: rest => Narrates.decidable start (.remove u f :: rest)
  | .move u f i :: rest => Narrates.decidable start (.move u f i :: rest)

theorem Narrates.follows {name : String} {l : List Action} (h : Narrates name l) :
    Follows name l := by
  induction l generalizing name with
  | nil => trivial
  | cons a rest ih =>
    obtain ⟨hi, hn, hr, h⟩ := h
    have hsame : Text.sameName a.fieldName name := by rw [hn]; exact Text.sameName_refl name
    cases a with
    | insert => cases hi
    | remove u f => exact ⟨hsame, hr rfl⟩
    | change | move => exact ⟨hsame, ih h⟩

namespace Planned

theorem withFieldName_self {p : Planned} {n : String} (h : p.action.fieldName = n) :
    p.withFieldName n = p := by
  subst h
  obtain ⟨i, r, a⟩ := p
  cases a <;> rfl

theorem newName?_withFieldName (p : Planned) (n : String) :
    (p.withFieldName n).action.newName? = p.action.newName? := by
  unfold withFieldName
  cases p.action <;> rfl

end Planned

/-- The last of the edits that satisfy `s`. -/
def lastOf (s : Action → Bool) (h : List Planned) : Option Planned :=
  (h.filter fun p => s p.action).getLast?

section LastEdits

variable {s : Action → Bool} {p q : Planned} {h : List Planned} {name start n : String}

theorem lastOf_cons :
    lastOf s (p :: h) = (lastOf s h).or (if s p.action then some p else none) := by
  unfold lastOf
  rw [List.filter_cons]
  split
  · rw [List.getLast?_cons]
    cases (h.filter fun p => s p.action).getLast? <;> rfl
  · rw [Option.or_none]

/-- Taken in before the others, an edit is the last one if there was none. -/
theorem map_lastOf_cons (hn : p.action.fieldName = start) :
    (lastOf s (p :: h)).map (·.withFieldName start) =
      ((lastOf s h).map (·.withFieldName start)).or (if s p.action then some p else none) := by
  rw [lastOf_cons]
  cases lastOf s h with
  | some q => rfl
  | none =>
    simp only [Option.none_or, Option.map_none]
    split
    · rw [Option.map_some, Planned.withFieldName_self hn]
    · rfl

theorem nameAfterAll_of_no_rename (hs : lastOf Action.isRename h = none) :
    nameAfterAll name (h.map Planned.action) = name := by
  induction h with
  | nil => rfl
  | cons p h ih =>
    rw [lastOf_cons, Option.or_eq_none_iff] at hs
    have hp : p.action.isRename = false := by simpa using hs.2
    have h' := ih hs.1
    rw [List.map_cons, nameAfterAll, List.foldl_cons, Action.nameAfter_of_not_rename hp]
    exact h'

/-- The target of the last rename is the name in the end. -/
theorem nameAfterAll_of_rename (hs : lastOf Action.isRename h = some q)
    (hq : q.action.newName? = some n) : nameAfterAll name (h.map Planned.action) = n := by
  induction h generalizing name with
  | nil => cases hs
  | cons p h ih =>
    rw [List.map_cons, nameAfterAll, List.foldl_cons]
    rw [lastOf_cons] at hs
    cases hl : lastOf Action.isRename h with
    | some q' =>
      rw [hl] at hs
      cases hs
      exact ih hl
    | none =>
      rw [hl, Option.none_or, Option.ite_none_right_eq_some] at hs
      rw [← Option.some.inj hs.2] at hq
      have hname : p.action.nameAfter name = n := by
        rw [Action.nameAfter, hq]
        rfl
      rw [hname]
      exact nameAfterAll_of_no_rename hl

end LastEdits

/-- Whether the action sets the property with that folded name; the name is none of them. -/
def Action.setsKey (k : String) (a : Action) : Bool := !a.isRename && a.propertyKey? = some k

namespace Record

/-- The last edit of each kind, under the name at the start. -/
structure Latest (start : String) (h : List Planned) (r : Record) : Prop where
  removal : r.removal = none
  insertion : r.insertion = none
  rename : r.rename = (lastOf Action.isRename h).map (·.withFieldName start)
  properties : ∀ k, r.properties.get? k =
    (lastOf (Action.setsKey k) h).map (·.withFieldName start)
  movement : r.movement = (lastOf Action.isMove h).map (·.withFieldName start)

section Latest

variable {name start : String} {h : List Planned} {p : Planned} {r s : Record}

theorem Latest.withFieldName (hl : Latest name h r) (start : String) :
    Latest start h (r.withFieldName start) := by
  refine ⟨?_, hl.insertion, ?_, fun k => ?_, ?_⟩
  · rw [Record.withFieldName, hl.removal]
    rfl
  · rw [← Planned.map_withFieldName_map _ name, ← hl.rename]
    rfl
  · rw [← Planned.map_withFieldName_map _ name, ← hl.properties, Record.withFieldName, Dict.get?_map]
  · rw [← Planned.map_withFieldName_map _ name, ← hl.movement]
    rfl

/-- An edit is recorded where no later one of its kind is. -/
theorem Latest.cons (hl : Latest start h s) (hn : p.action.fieldName = start)
    (hrem : r.removal = none) (hins : r.insertion = none)
    (hrename : r.rename = s.rename.or (if p.action.isRename then some p else none))
    (hset : ∀ k, r.properties.get? k =
      (s.properties.get? k).or (if p.action.setsKey k then some p else none))
    (hmove : r.movement = s.movement.or (if p.action.isMove then some p else none)) :
    Latest start (p :: h) r := by
  refine ⟨hrem, hins, ?_, fun k => ?_, ?_⟩
  · rw [map_lastOf_cons hn, hrename, hl.rename]
  · rw [map_lastOf_cons hn, hset, hl.properties]
  · rw [map_lastOf_cons hn, hmove, hl.movement]

theorem Absorbs.latest (ha : Absorbs p s r) (hl : Latest (p.action.nameAfter start) h s)
    (hn : p.action.fieldName = start) (hins : p.action.isInsertion = false)
    (hrem : p.action.isRemoval = false) : Latest start (p :: h) r := by
  have hstay : p.action.isRename = false → Latest start h s := by
    intro hno
    rwa [Action.nameAfter_of_not_rename hno] at hl
  cases ha with
  | @rename u f n v ha hs h1 h2 =>
    rw [ha] at hn
    cases hn
    have hl := hl.withFieldName f
    have hp : p.withFieldName f = p := Planned.withFieldName_self (by rw [ha]; rfl)
    refine hl.cons (by rw [ha]; rfl) hl.removal hl.insertion ?_ (fun k => ?_) ?_
    · simp [withFieldName, h1, ha, Action.isRename, hs, hp]
    · simp [withFieldName, ha, Action.setsKey, Action.isRename, hs]
    · simp [withFieldName, ha, Action.isMove]
  | @merge u f n v ha hs h1 =>
    rw [ha] at hn
    cases hn
    have hsome : s.rename.isSome := h1.resolve_right (by simp [hl.removal])
    obtain ⟨q, hq⟩ := Option.isSome_iff_exists.1 hsome
    have hl := hl.withFieldName f
    refine hl.cons (by rw [ha]; rfl) hl.removal hl.insertion ?_ (fun k => ?_) ?_
    · simp [withFieldName, hq]
    · simp [withFieldName, ha, Action.setsKey, Action.isRename, hs]
    · simp [withFieldName, ha, Action.isMove]
  | @change u f n v ha hs h1 h2 =>
    have hno : p.action.isRename = false := by simpa [ha, Action.isRename] using hs
    have hl := hstay hno
    refine hl.cons hn h1 hl.insertion ?_ (fun k => ?_) ?_
    · simp [hno]
    · rw [Dict.get?_insert]
      by_cases hk : k = Text.fold n
      · subst hk
        simp [h2, Action.setsKey, ha, Action.isRename, hs, Action.propertyKey?]
      · simp [Action.setsKey, ha, Action.propertyKey?, hk, Ne.symm hk]
    · simp [ha, Action.isMove]
  | @overwritten u f n v ha hs h1 =>
    have hno : p.action.isRename = false := by simpa [ha, Action.isRename] using hs
    have hl := hstay hno
    have hsome : (r.properties.get? (Text.fold n)).isSome :=
      h1.resolve_left (by simp [hl.removal])
    obtain ⟨q, hq⟩ := Option.isSome_iff_exists.1 hsome
    refine hl.cons hn hl.removal hl.insertion ?_ (fun k => ?_) ?_
    · simp [hno]
    · by_cases hk : k = Text.fold n
      · subst hk
        simp [hq]
      · simp [Action.setsKey, ha, Action.propertyKey?, Ne.symm hk]
    · simp [ha, Action.isMove]
  | move ha h1 h2 =>
    have hl := hstay (by rw [ha]; rfl)
    refine hl.cons hn h1 hl.insertion ?_ (fun k => ?_) ?_
    · simp [ha, Action.isRename]
    · simp [ha, Action.setsKey, Action.propertyKey?]
    · simp [h2, ha, Action.isMove]
  | superseded ha h1 =>
    have hl := hstay (by rw [ha]; rfl)
    have hsome : r.movement.isSome := h1.resolve_left (by simp [hl.removal])
    obtain ⟨q, hq⟩ := Option.isSome_iff_exists.1 hsome
    refine hl.cons hn hl.removal hl.insertion ?_ (fun k => ?_) ?_
    · simp [ha, Action.isRename]
    · simp [ha, Action.setsKey, Action.propertyKey?]
    · simp [hq]
  | remove ha => simp [ha, Action.isRemoval] at hrem
  | cancel ha | insert ha => simp [ha, Action.isInsertion] at hins

theorem latest_of_history (hn : Narrates start (h.map Planned.action))
    (hrem : ∀ p ∈ h, p.action.isRemoval = false) (hr : ofHistory h = .ok r) :
    Latest start h r := by
  induction h generalizing start r with
  | nil =>
    cases hr
    exact ⟨rfl, rfl, rfl, fun _ => rfl, rfl⟩
  | cons p h ih =>
    obtain ⟨s, hs, ha⟩ := ofHistory_cons.1 hr
    obtain ⟨hins, hname, -, hn⟩ := hn
    have hl := ih hn (fun q hq => hrem q (List.mem_cons_of_mem p hq)) hs
    exact ha.latest hl hname hins (hrem p List.mem_cons_self)

/-- A removal names the field as it is called at the start. -/
theorem removal_eq_of_history (hn : Narrates start (h.map Planned.action))
    (hr : ofHistory h = .ok r) :
    r.removal = (lastOf Action.isRemoval h).map (·.withFieldName start) := by
  induction h generalizing start r with
  | nil =>
    cases hr
    rfl
  | cons p h ih =>
    obtain ⟨s, hs, ha⟩ := ofHistory_cons.1 hr
    obtain ⟨hins, hname, hend, hn⟩ := hn
    have hl := ih hn hs
    rw [map_lastOf_cons hname]
    have hother : p.action.isRename = false → p.action.isRemoval = false →
        s.removal = ((lastOf Action.isRemoval h).map (·.withFieldName start)).or
          (if p.action.isRemoval then some p else none) := by
      intro hno hrem
      rw [Action.nameAfter_of_not_rename hno] at hl
      simp [hl, hrem]
    have hrenamed : p.action.isRemoval = false → (s.withFieldName start).removal =
        ((lastOf Action.isRemoval h).map (·.withFieldName start)).or
          (if p.action.isRemoval then some p else none) := by
      intro hrem
      rw [Record.withFieldName, hl, Planned.map_withFieldName_map]
      simp [hrem]
    cases ha with
    | rename ha | merge ha =>
      rw [ha] at hname
      cases hname
      exact hrenamed (by rw [ha]; rfl)
    | change ha hn | overwritten ha hn =>
      exact hother (by simpa [ha, Action.isRename] using hn) (by rw [ha]; rfl)
    | move ha | superseded ha => exact hother (by rw [ha]; rfl) (by rw [ha]; rfl)
    | remove ha =>
      have hnil : h = [] := List.map_eq_nil_iff.1 (hend (by rw [ha]; rfl))
      subst hnil
      simp [lastOf, ha, Action.isRemoval]
    | cancel ha | insert ha => simp [ha, Action.isInsertion] at hins

end Latest

section Names

variable {f g : Field} {l : List Planned} {q : Planned}

theorem name_of_no_rename (hs : lastOf Action.isRename l = none)
    (hl : l.foldlM applyChange f = .ok g) : g.name = f.name := by
  induction l generalizing f with
  | nil =>
    cases hl
    rfl
  | cons p l ih =>
    obtain ⟨f1, h1, h2⟩ := foldlM_cons_eq_ok.1 hl
    rw [lastOf_cons, Option.or_eq_none_iff] at hs
    have hp : p.action.isRename = false := by simpa using hs.2
    exact (ih hs.1 h2).trans (name_of_not_rename hp h1)

/-- The last rename gives the definition its name. -/
theorem name_of_last_rename (hs : lastOf Action.isRename l = some q)
    (hl : l.foldlM applyChange f = .ok g) : q.action.newName? = some g.name := by
  induction l generalizing f with
  | nil => cases hs
  | cons p l ih =>
    obtain ⟨f1, h1, h2⟩ := foldlM_cons_eq_ok.1 hl
    rw [lastOf_cons] at hs
    cases hlast : lastOf Action.isRename l with
    | some q' =>
      rw [hlast] at hs
      cases hs
      exact ih hlast h2
    | none =>
      rw [hlast, Option.none_or, Option.ite_none_right_eq_some] at hs
      rw [← Option.some.inj hs.2, name_of_no_rename hlast h2]
      exact name_of_rename hs.1 h1

theorem Tidy.lastOf_definitionChanges {u : Uid} {r : Record} (h : r.Tidy u) :
    lastOf Action.isRename r.definitionChanges = r.rename := by
  unfold lastOf definitionChanges
  rw [filter_inOrder, List.filter_append, List.filter_eq_self.2 h.isRename_of_rename,
    List.filter_eq_nil_iff.2 (by simpa using h.isRename_of_property), List.append_nil]
  cases r.rename <;> rfl

/-- An inserted definition has the name of the field in the end. -/
theorem Latest.name_of_foldInto {u : Uid} {start : String} {h : List Planned} {s : Record}
    (hl : Latest start h s) (tidy : s.Tidy u) (hf : f.name = start) (hg : s.foldInto f = .ok g) :
    g.name = nameAfterAll start (h.map Planned.action) := by
  cases hren : lastOf Action.isRename h with
  | none =>
    rw [nameAfterAll_of_no_rename hren, ← hf]
    refine name_of_no_rename ?_ hg
    rw [tidy.lastOf_definitionChanges, hl.rename, hren]
    rfl
  | some q =>
    have hlast : lastOf Action.isRename s.definitionChanges = some (q.withFieldName start) := by
      rw [tidy.lastOf_definitionChanges, hl.rename, hren]
      rfl
    have hnew := name_of_last_rename hlast hg
    rw [Planned.newName?_withFieldName] at hnew
    exact (nameAfterAll_of_rename hren hnew).symm

end Names

end Record

end TableAlteration
