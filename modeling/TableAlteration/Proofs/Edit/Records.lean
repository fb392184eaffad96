import TableAlteration.Edit.Reduction
import TableAlteration.Proofs.Dict
import TableAlteration.Proofs.Edit.Order
import TableAlteration.Proofs.Failure

namespace TableAlteration

def editsOf (u : Uid) (l : List Planned) : List Planned := l.filter fun p => p.uid = u

/-- The edit without its field name and its definition. -/
def Action.bare : Action → Action
  | .change u _ p v => .change u "" p v
  | .remove u _ => .remove u ""
  | .insert u i _ => .insert u i { name := "", type := .byte }
  | .move u _ i => .move u "" i

def Planned.bare (p : Planned) : Planned := { p with action := p.action.bare }

@[simp] theorem Action.uid_bare (a : Action) : a.bare.uid = a.uid := by cases a <;> rfl

@[simp] theorem Action.bare_withFieldName (a : Action) (n : String) :
    (a.withFieldName n).bare = a.bare := by cases a <;> rfl

namespace Planned

@[simp] theorem bare_withFieldName (p : Planned) (n : String) :
    (p.withFieldName n).bare = p.bare := by
  unfold bare withFieldName
  rw [Action.bare_withFieldName]

theorem withFieldName_withFieldName (p : Planned) (m n : String) :
    (p.withFieldName m).withFieldName n = p.withFieldName n := by
  unfold withFieldName
  cases p.action <;> rfl

theorem map_withFieldName_map (o : Option Planned) (m n : String) :
    (o.map (·.withFieldName m)).map (·.withFieldName n) = o.map (·.withFieldName n) := by
  rw [Option.map_map]
  exact Option.map_congr fun q _ => withFieldName_withFieldName q m n

theorem order_of_bare {p q : Planned} (h : p.bare = q.bare) : p.order = q.order := by
  have h' : p.bare.order = q.bare.order := by rw [h]
  exact h'

theorem uid_of_bare {p q : Planned} (h : p.bare = q.bare) : p.uid = q.uid := by
  have h' : p.action.bare = q.action.bare := congrArg action h
  unfold uid
  rw [← Action.uid_bare, h', Action.uid_bare]

end Planned

theorem mem_editsOf {u : Uid} {p : Planned} {l : List Planned} :
    p ∈ editsOf u l ↔ p ∈ l ∧ p.uid = u := by simp [editsOf]

theorem editsOf_cons (u : Uid) (p : Planned) (l : List Planned) :
    editsOf u (p :: l) = if p.uid = u then p :: editsOf u l else editsOf u l := by
  simp [editsOf, List.filter_cons]

theorem editsOf_append (u : Uid) (k l : List Planned) :
    editsOf u (k ++ l) = editsOf u k ++ editsOf u l := by simp [editsOf]

/-- Lists have the same edits if each field has the same edits in both. -/
theorem perm_of_editsOf {k l : List Planned} (h : ∀ u, (editsOf u k).Perm (editsOf u l)) :
    k.Perm l := by
  refine List.perm_iff_count.2 fun p => ?_
  have hcount : ∀ l, l.count p = (editsOf p.uid l).count p := by
    intro l
    rw [editsOf, List.count_filter (by simp)]
  rw [hcount k, hcount l, (h p.uid).count_eq]

namespace Record

theorem mem_toList {r : Record} {p : Planned} :
    p ∈ r.toList ↔ r.removal = some p ∨ r.insertion = some p ∨ r.rename = some p ∨
      (∃ k, r.properties.get? k = some p) ∨ r.movement = some p := by
  simp only [toList, List.mem_append, Option.mem_toList, Dict.mem_values, or_assoc]

theorem eq_or_mem_of_removal {r : Record} {p q : Planned}
    (h : q ∈ { r with removal := some p }.toList) : q = p ∨ q ∈ r.toList := by
  simp only [mem_toList, Option.some.injEq] at h ⊢
  rcases h with h | h
  · exact .inl h.symm
  · exact .inr (.inr h)

theorem eq_or_mem_of_rename {r : Record} {p q : Planned}
    (h : q ∈ { r with rename := some p }.toList) : q = p ∨ q ∈ r.toList := by
  simp only [mem_toList, Option.some.injEq] at h ⊢
  rcases h with h | h | h | h
  · exact .inr (.inl h)
  · exact .inr (.inr (.inl h))
  · exact .inl h.symm
  · exact .inr (.inr (.inr (.inr h)))

theorem eq_or_mem_of_property {r : Record} {k : String} {p q : Planned}
    (h : q ∈ { r with properties := r.properties.insert k p }.toList) :
    q = p ∨ q ∈ r.toList := by
  simp only [mem_toList, Dict.get?_insert] at h ⊢
  rcases h with h | h | h | ⟨k', h⟩ | h
  · exact .inr (.inl h)
  · exact .inr (.inr (.inl h))
  · exact .inr (.inr (.inr (.inl h)))
  · split at h
    · exact .inl (Option.some.inj h).symm
    · exact .inr (.inr (.inr (.inr (.inl ⟨k', h⟩))))
  · exact .inr (.inr (.inr (.inr (.inr h))))

theorem eq_or_mem_of_movement {r : Record} {p q : Planned}
    (h : q ∈ { r with movement := some p }.toList) : q = p ∨ q ∈ r.toList := by
  simp only [mem_toList, Option.some.injEq] at h ⊢
  rcases h with h | h | h | h | h
  · exact .inr (.inl h)
  · exact .inr (.inr (.inl h))
  · exact .inr (.inr (.inr (.inl h)))
  · exact .inr (.inr (.inr (.inr (.inl h))))
  · exact .inl h.symm

/-- Each edit stands in its place, and all are edits of the field `u`. -/
structure Tidy (u : Uid) (r : Record) : Prop where
  removal : ∀ p, r.removal = some p → ∃ f, p.action = .remove u f
  insertion : ∀ p, r.insertion = some p → ∃ i d, p.action = .insert u i d
  rename : ∀ p, r.rename = some p → ∃ f n v, p.action = .change u f n v ∧ Text.sameName n "name"
  properties : ∀ k p, r.properties.get? k = some p →
    ∃ f n v, p.action = .change u f n v ∧ Text.fold n = k ∧ ¬ Text.sameName n "name"
  movement : ∀ p, r.movement = some p → ∃ f i, p.action = .move u f i

theorem tidy_empty (u : Uid) : Tidy u {} := by
  constructor <;> intros <;> simp_all

theorem Tidy.uid {u : Uid} {r : Record} (h : r.Tidy u) {p : Planned} (hp : p ∈ r.toList) :
    p.uid = u := by
  unfold Planned.uid
  rcases mem_toList.1 hp with h' | h' | h' | ⟨k, h'⟩ | h'
  · obtain ⟨f, e⟩ := h.removal p h'
    rw [e]
    rfl
  · obtain ⟨i, d, e⟩ := h.insertion p h'
    rw [e]
    rfl
  · obtain ⟨f, n, v, e, -⟩ := h.rename p h'
    rw [e]
    rfl
  · obtain ⟨f, n, v, e, -⟩ := h.properties k p h'
    rw [e]
    rfl
  · obtain ⟨f, i, e⟩ := h.movement p h'
    rw [e]
    rfl

theorem Tidy.withFieldName {u : Uid} {r : Record} (h : r.Tidy u) (name : String) :
    (r.withFieldName name).Tidy u := by
  constructor
  · intro p hp
    obtain ⟨q, hq, rfl⟩ := Option.map_eq_some_iff.1 hp
    obtain ⟨f, e⟩ := h.removal q hq
    exact ⟨name, by simp [Planned.withFieldName, e, Action.withFieldName]⟩
  · exact h.insertion
  · intro p hp
    obtain ⟨q, hq, rfl⟩ := Option.map_eq_some_iff.1 hp
    obtain ⟨f, n, v, e, hn⟩ := h.rename q hq
    exact ⟨name, n, v, by simp [Planned.withFieldName, e, Action.withFieldName], hn⟩
  · intro k p hp
    rw [Record.withFieldName, Dict.get?_map] at hp
    obtain ⟨q, hq, rfl⟩ := Option.map_eq_some_iff.1 hp
    obtain ⟨f, n, v, e, hn⟩ := h.properties k q hq
    exact ⟨name, n, v, by simp [Planned.withFieldName, e, Action.withFieldName], hn⟩
  · intro p hp
    obtain ⟨q, hq, rfl⟩ := Option.map_eq_some_iff.1 hp
    obtain ⟨f, i, e⟩ := h.movement q hq
    exact ⟨name, i, by simp [Planned.withFieldName, e, Action.withFieldName]⟩

/-- The rules by which a record takes in an edit that precedes those recorded. -/
inductive Absorbs (p : Planned) (r : Record) : Record → Prop where
  | rename {u f n v} : p.action = .change u f n v → Text.sameName n "name" →
      r.rename = none → r.removal = none → Absorbs p r ({ r with rename := some p }.withFieldName f)
  | merge {u f n v} : p.action = .change u f n v → Text.sameName n "name" →
      (r.rename.isSome ∨ r.removal.isSome) → Absorbs p r (r.withFieldName f)
  | change {u f n v} : p.action = .change u f n v → ¬ Text.sameName n "name" →
      r.removal = none → r.properties.get? (Text.fold n) = none →
      Absorbs p r { r with properties := r.properties.insert (Text.fold n) p }
  | overwritten {u f n v} : p.action = .change u f n v → ¬ Text.sameName n "name" →
      (r.removal.isSome ∨ (r.properties.get? (Text.fold n)).isSome) → Absorbs p r r
  | remove {u f} : p.action = .remove u f → Absorbs p r { r with removal := some p }
  | cancel {u i d} : p.action = .insert u i d → r.removal.isSome → Absorbs p r {}
  | insert {u i d g} : p.action = .insert u i d → r.removal = none → r.foldInto d = .ok g →
      Absorbs p r { r with
        insertion := some { p with action := .insert u i g }
        rename := none
        properties := ∅ }
  | move {u f i} : p.action = .move u f i → r.removal = none → r.movement = none →
      Absorbs p r { r with movement := some p }
  | superseded {u f i} : p.action = .move u f i → (r.removal.isSome ∨ r.movement.isSome) →
      Absorbs p r r

theorem Absorbs.of_eq_ok {r r' : Record} {p : Planned} (h : r.absorb p = .ok r') :
    Absorbs p r r' := by
  cases ha : p.action with
  | change u f n v =>
    simp only [absorb, ha] at h
    split at h
    · rename_i hn
      cases h
      split
      · rename_i hr
        exact .rename ha hn (Option.isNone_iff_eq_none.1 hr.1) (Option.isNone_iff_eq_none.1 hr.2)
      · rename_i hr
        refine .merge ha hn ?_
        simp only [Option.isNone_iff_eq_none, not_and_or] at hr
        simpa [Option.isSome_iff_ne_none] using hr
    · rename_i hn
      split at h
      · rename_i hr
        cases h
        refine .change ha hn (Option.isNone_iff_eq_none.1 hr.1) ?_
        simpa [Dict.contains] using hr.2
      · rename_i hr
        cases h
        refine .overwritten ha hn ?_
        simp only [Option.isNone_iff_eq_none, not_and_or] at hr
        simpa [Option.isSome_iff_ne_none, Dict.contains] using hr
  | remove u f =>
    simp only [absorb, ha] at h
    cases h
    exact .remove ha
  | insert u i d =>
    simp only [absorb, ha] at h
    split at h
    · rename_i hr
      cases h
      exact .cancel ha hr
    · rename_i hr
      obtain ⟨g, hg, e⟩ := bind_eq_ok.1 h
      cases e
      exact .insert ha (by simpa using hr) hg
  | move u f i =>
    simp only [absorb, ha] at h
    split at h
    · rename_i hr
      cases h
      exact .move ha (Option.isNone_iff_eq_none.1 hr.1) (Option.isNone_iff_eq_none.1 hr.2)
    · rename_i hr
      cases h
      refine .superseded ha ?_
      simp only [Option.isNone_iff_eq_none, not_and_or] at hr
      simpa [Option.isSome_iff_ne_none] using hr

theorem Absorbs.eq_ok {r r' : Record} {p : Planned} (h : Absorbs p r r') :
    r.absorb p = .ok r' := by
  cases h with
  | rename ha hn h1 h2 => simp [absorb, ha, Action.isRename, hn, h1, h2]
  | merge ha hn h1 =>
    rcases h1 with h1 | h1 <;>
      simp [absorb, ha, Action.isRename, hn, Option.isSome_iff_ne_none.1 h1]
  | change ha hn h1 h2 => simp [absorb, ha, Action.isRename, hn, h1, h2, Dict.contains]
  | overwritten ha hn h1 =>
    rcases h1 with h1 | h1 <;>
      simp [absorb, ha, Action.isRename, hn, Option.isSome_iff_ne_none.1 h1, Dict.contains]
  | remove ha => simp [absorb, ha]
  | cancel ha h1 => simp [absorb, ha, h1]
  | insert ha h1 h2 => simp [absorb, ha, h1, h2, bind, Except.bind, pure, Except.pure]
  | move ha h1 h2 => simp [absorb, ha, h1, h2]
  | superseded ha h1 =>
    rcases h1 with h1 | h1 <;> simp [absorb, ha, Option.isSome_iff_ne_none.1 h1]

theorem absorb_eq_ok {r r' : Record} {p : Planned} : r.absorb p = .ok r' ↔ Absorbs p r r' :=
  ⟨Absorbs.of_eq_ok, Absorbs.eq_ok⟩

theorem Absorbs.tidy {u : Uid} {r r' : Record} {p : Planned} (h : Absorbs p r r')
    (hp : p.uid = u) (hr : r.Tidy u) : r'.Tidy u := by
  subst hp
  cases h with
  | rename ha hn h1 h2 =>
    apply Tidy.withFieldName
    refine { hr with rename := ?_ }
    intro q h
    cases h
    exact ⟨_, _, _, by rw [Planned.uid, ha]; rfl, hn⟩
  | merge ha hn h1 => exact hr.withFieldName _
  | change ha hn h1 h2 =>
    refine { hr with properties := ?_ }
    intro k q hq
    rw [Dict.get?_insert] at hq
    split at hq
    · rename_i hk
      cases hq
      exact ⟨_, _, _, by rw [Planned.uid, ha]; rfl, hk.symm, hn⟩
    · exact hr.properties k q hq
  | overwritten | superseded => exact hr
  | remove ha =>
    refine { hr with removal := ?_ }
    intro q h
    cases h
    exact ⟨_, by rw [Planned.uid, ha]; rfl⟩
  | cancel => exact tidy_empty _
  | insert ha h1 h2 =>
    refine { hr with insertion := ?_, rename := ?_, properties := ?_ }
    · intro q h
      cases h
      exact ⟨_, _, by rw [Planned.uid, ha]; rfl⟩
    · intro q h
      cases h
    · intro k q h
      cases h
  | move ha h1 h2 =>
    refine { hr with movement := ?_ }
    intro q h
    cases h
    exact ⟨_, _, by rw [Planned.uid, ha]; rfl⟩

theorem bare_of_mem_withFieldName {r : Record} {name : String} {q : Planned}
    (h : q ∈ (r.withFieldName name).toList) : ∃ s ∈ r.toList, q.bare = s.bare := by
  simp only [mem_toList, withFieldName, Dict.get?_map, Option.map_eq_some_iff] at h ⊢
  rcases h with ⟨s, hs, rfl⟩ | h | ⟨s, hs, rfl⟩ | ⟨k, s, hs, rfl⟩ | ⟨s, hs, rfl⟩
  · exact ⟨s, .inl hs, Planned.bare_withFieldName ..⟩
  · exact ⟨q, .inr (.inl h), rfl⟩
  · exact ⟨s, .inr (.inr (.inl hs)), Planned.bare_withFieldName ..⟩
  · exact ⟨s, .inr (.inr (.inr (.inl ⟨k, hs⟩))), Planned.bare_withFieldName ..⟩
  · exact ⟨s, .inr (.inr (.inr (.inr hs))), Planned.bare_withFieldName ..⟩

/-- Nothing is recorded but what was recorded before and the edit taken in. -/
theorem Absorbs.bare_of_mem {r r' : Record} {p q : Planned} (h : Absorbs p r r')
    (hq : q ∈ r'.toList) : q.bare = p.bare ∨ ∃ s ∈ r.toList, q.bare = s.bare := by
  have hold : q = p ∨ q ∈ r.toList → q.bare = p.bare ∨ ∃ s ∈ r.toList, q.bare = s.bare := by
    intro h
    rcases h with rfl | h
    · exact .inl rfl
    · exact .inr ⟨q, h, rfl⟩
  cases h with
  | rename ha hn h1 h2 =>
    obtain ⟨s, hs, e⟩ := bare_of_mem_withFieldName hq
    rcases eq_or_mem_of_rename hs with rfl | hs
    · exact .inl e
    · exact .inr ⟨s, hs, e⟩
  | merge ha hn h1 => exact .inr (bare_of_mem_withFieldName hq)
  | change ha hn h1 h2 => exact hold (eq_or_mem_of_property hq)
  | overwritten | superseded => exact hold (.inr hq)
  | remove ha => exact hold (eq_or_mem_of_removal hq)
  | cancel => cases hq
  | insert ha h1 h2 =>
    simp only [mem_toList] at hq
    rcases hq with h | h | h | ⟨k, h⟩ | h
    · exact hold (.inr (mem_toList.2 (.inl h)))
    · cases h
      left
      simp only [Planned.bare, ha, Action.bare]
    · cases h
    · cases h
    · exact hold (.inr (mem_toList.2 (.inr (.inr (.inr (.inr h))))))
  | move ha h1 h2 => exact hold (eq_or_mem_of_movement hq)

end Record

end TableAlteration
