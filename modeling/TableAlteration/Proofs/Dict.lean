import TableAlteration.Dict

namespace TableAlteration.Dict

variable {α β γ : Type} [Ord α]

private theorem insertEntry_of_lookup_none {k : α} (v : β) {l : List (α × β)}
    (h : lookup k l = none) : ∃ a b, l = a ++ b ∧ insertEntry k v l = a ++ (k, v) :: b := by
  induction l with
  | nil => exact ⟨[], [], rfl, rfl⟩
  | cons e rest ih =>
    obtain ⟨j, w⟩ := e
    rw [lookup] at h
    split at h
    · cases h
    · rename_i hj
      unfold insertEntry
      split
      · exact ⟨[], _, rfl, rfl⟩
      · rename_i hk
        exact absurd hk hj
      · obtain ⟨a, b, e, e'⟩ := ih h
        exact ⟨(j, w) :: a, b, by rw [e]; rfl, by rw [e']; rfl⟩

/-- A new key brings in its value and leaves the others in their sequence. -/
theorem values_insert_of_get?_none [Std.TransOrd α] {m : Dict α β} {k : α} (v : β)
    (h : m.get? k = none) :
    ∃ a b, m.values = a ++ b ∧ (m.insert k v).values = a ++ v :: b := by
  obtain ⟨a, b, e, e'⟩ := insertEntry_of_lookup_none v h
  refine ⟨a.map (·.2), b.map (·.2), ?_, ?_⟩
  · simp [values, e]
  · simp [values, insert, e']

variable [DecidableEq α] [Std.LawfulEqOrd α]

theorem get?_filter (m : Dict α β) (p : α → β → Bool) (k : α) :
    (m.filter p).get? k = (m.get? k).filter (p k) := by
  apply Option.ext
  intro v
  rw [get?_eq_some_iff, Option.filter_eq_some_iff, get?_eq_some_iff]
  exact List.mem_filter

theorem get?_map (m : Dict α β) (f : α → β → γ) (k : α) :
    (m.map f).get? k = (m.get? k).map (f k) := by
  apply Option.ext
  intro w
  rw [get?_eq_some_iff, Option.map_eq_some_iff]
  constructor
  · intro h
    obtain ⟨⟨j, v⟩, hm, e⟩ := List.mem_map.1 h
    cases e
    exact ⟨v, get?_eq_some_iff.2 hm, rfl⟩
  · intro h
    obtain ⟨v, hv, rfl⟩ := h
    exact List.mem_map.2 ⟨(k, v), get?_eq_some_iff.1 hv, rfl⟩

theorem mem_values {m : Dict α β} {v : β} : v ∈ m.values ↔ ∃ k, m.get? k = some v := by
  unfold values
  rw [List.mem_map]
  constructor
  · intro h
    obtain ⟨⟨k, w⟩, h, rfl⟩ := h
    exact ⟨k, get?_eq_some_iff.2 h⟩
  · intro h
    obtain ⟨k, h⟩ := h
    exact ⟨(k, v), get?_eq_some_iff.1 h, rfl⟩

/-- Of lists gathered from all values, what belongs to one key is the list of its value. -/
theorem filter_flatMap_values (m : Dict α β) (f : β → List γ) (key : γ → α) (k : α)
    (h : ∀ j v, m.get? j = some v → ∀ x ∈ f v, key x = j) :
    (m.values.flatMap f).filter (fun x => key x = k) = ((m.get? k).map f).getD [] := by
  obtain ⟨l, asc⟩ := m
  have hl : ∀ j v, (j, v) ∈ l → ∀ x ∈ f v, key x = j := fun j v hm =>
    h j v (get?_eq_some_iff.2 hm)
  clear h
  unfold values get?
  induction l with
  | nil => rfl
  | cons e rest ih =>
    obtain ⟨j, v⟩ := e
    rw [List.pairwise_cons] at asc
    have hrest := ih asc.2 (fun i w hi => hl i w (List.mem_cons_of_mem _ hi))
    have hv := hl j v List.mem_cons_self
    simp only [List.map_cons, List.flatMap_cons, List.filter_append, lookup,
      Std.LawfulEqOrd.compare_eq_iff_eq]
    split
    · rename_i e
      have hnone : lookup k rest = none := by
        cases hk : lookup k rest with
        | none => rfl
        | some w =>
          have hm : (k, w) ∈ rest := get?_eq_some_iff (m := ⟨rest, asc.2⟩).1 hk
          have hlt := asc.1 _ hm
          rw [← e, Std.LawfulEqOrd.compare_eq_iff_eq.2 rfl] at hlt
          cases hlt
      rw [hrest, hnone, List.filter_eq_self.2]
      · simp
      · intro x hx
        simp [hv x hx, e]
    · rename_i e
      rw [hrest, List.filter_eq_nil_iff.2]
      · rfl
      · intro x hx
        simpa [hv x hx] using fun e' => e e'.symm

variable [Std.TransOrd α]

private theorem get?_foldl_insert (l : List (α × β)) (m : Dict α β) {k : α} {v : β}
    (hl : (l.map Prod.fst).Nodup) :
    (l.foldl (fun m e => m.insert e.1 e.2) m).get? k = some v ↔
      (k, v) ∈ l ∨ (∀ w, (k, w) ∉ l) ∧ m.get? k = some v := by
  induction l generalizing m with
  | nil => simp
  | cons e rest ih =>
    obtain ⟨j, w⟩ := e
    rw [List.map_cons, List.nodup_cons] at hl
    have hj : ∀ x, (j, x) ∉ rest := fun x hx =>
      hl.1 (List.mem_map.2 ⟨(j, x), hx, rfl⟩)
    rw [List.foldl_cons, ih _ hl.2, get?_insert]
    by_cases hk : k = j
    · subst hk
      simp [hj, eq_comm]
    · simp [hk]

/-- With different keys every entry of the list is found. -/
theorem get?_ofList {l : List (α × β)} (hl : (l.map Prod.fst).Nodup) {k : α} {v : β} :
    (ofList l).get? k = some v ↔ (k, v) ∈ l := by
  have hempty : (empty : Dict α β).get? k ≠ some v := by
    intro h
    cases h
  unfold ofList
  rw [get?_foldl_insert l empty hl]
  simp [hempty]

theorem erase_erase_self (m : Dict α β) (k : α) : (m.erase k).erase k = m.erase k := by
  apply ext
  intro j
  simp only [get?_erase]
  split <;> rfl

theorem erase_erase_comm (m : Dict α β) (j k : α) :
    (m.erase j).erase k = (m.erase k).erase j := by
  apply ext
  intro i
  simp only [get?_erase]
  split <;> split <;> rfl

theorem insert_erase_self (m : Dict α β) (k : α) (v : β) :
    (m.erase k).insert k v = m.insert k v := by
  apply ext
  intro j
  simp only [get?_erase, get?_insert]
  split <;> rfl

theorem erase_insert_self (m : Dict α β) (k : α) (v : β) :
    (m.insert k v).erase k = m.erase k := by
  apply ext
  intro j
  simp only [get?_erase, get?_insert]
  split <;> rfl

theorem erase_insert_of_get?_none {m : Dict α β} {k : α} (v : β)
    (h : m.get? k = none) : (m.insert k v).erase k = m := by
  refine Dict.ext fun j => ?_
  rw [get?_erase, get?_insert]
  split
  · rename_i e
    rw [e, h]
  · rfl

/-- What a map has already may be inserted again. -/
theorem insert_of_get?_some {m : Dict α β} {k : α} {v : β} (h : m.get? k = some v) :
    m.insert k v = m := by
  refine Dict.ext fun j => ?_
  rw [get?_insert]
  split
  · rename_i e
    rw [e, h]
  · rfl

theorem insert_insert_self (m : Dict α β) (k : α) (v w : β) :
    (m.insert k v).insert k w = m.insert k w := by
  refine Dict.ext fun j => ?_
  simp only [get?_insert]
  split <;> rfl

theorem map_insert (m : Dict α β) (k : α) (v : β) (f : α → β → γ) :
    (m.insert k v).map f = (m.map f).insert k (f k v) := by
  refine Dict.ext fun j => ?_
  rw [get?_map, get?_insert, get?_insert, get?_map]
  split
  · rename_i e
    rw [e]
    rfl
  · rfl

/-- What is erased in the end does not matter on the way. -/
theorem erase_insert_erase (m : Dict α β) (j k : α) (v : β) :
    ((m.erase k).insert j v).erase k = (m.insert j v).erase k := by
  apply ext
  intro i
  simp only [get?_erase, get?_insert]
  split
  · rfl
  · split <;> rfl

end TableAlteration.Dict
