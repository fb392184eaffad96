namespace TableAlteration

/-- A finite map with its entries in ascending order of the keys, so that maps which answer every
look-up alike are equal. -/
structure Dict (α β : Type) [Ord α] where
  entries : List (α × β)
  ascending : entries.Pairwise fun a b => compare a.1 b.1 = .lt
  deriving DecidableEq

namespace Dict

variable {α β γ : Type} [Ord α]

theorem ext_entries {m n : Dict α β} (h : m.entries = n.entries) : m = n := by
  cases m; cases n; cases h; rfl

def empty : Dict α β := ⟨[], .nil⟩

instance : EmptyCollection (Dict α β) := ⟨empty⟩

def isEmpty (m : Dict α β) : Bool := m.entries.isEmpty

def size (m : Dict α β) : Nat := m.entries.length

def keys (m : Dict α β) : List α := m.entries.map (·.1)

def values (m : Dict α β) : List β := m.entries.map (·.2)

def lookup (k : α) : List (α × β) → Option β
  | [] => none
  | (a, b) :: rest => if compare k a = .eq then some b else lookup k rest

def get? (m : Dict α β) (k : α) : Option β := lookup k m.entries

def contains (m : Dict α β) (k : α) : Bool := (m.get? k).isSome

def insertEntry (k : α) (v : β) : List (α × β) → List (α × β)
  | [] => [(k, v)]
  | (a, b) :: rest =>
    match compare k a with
    | .lt => (k, v) :: (a, b) :: rest
    | .eq => (k, v) :: rest
    | .gt => (a, b) :: insertEntry k v rest

private theorem mem_insertEntry {k : α} {v : β} {e : α × β} {l : List (α × β)}
    (h : e ∈ insertEntry k v l) : e = (k, v) ∨ e ∈ l := by
  induction l with
  | nil => simpa [insertEntry] using h
  | cons x rest ih =>
    obtain ⟨a, b⟩ := x
    unfold insertEntry at h
    split at h <;> grind

private theorem insertEntry_ascending [Std.TransOrd α] (k : α) (v : β) {l : List (α × β)}
    (h : l.Pairwise fun a b => compare a.1 b.1 = .lt) :
    (insertEntry k v l).Pairwise fun a b => compare a.1 b.1 = .lt := by
  induction l with
  | nil => simp [insertEntry]
  | cons x rest ih =>
    obtain ⟨a, b⟩ := x
    rw [List.pairwise_cons] at h
    unfold insertEntry
    split
    · rename_i hk
      refine .cons (fun e he => ?_) (.cons h.1 h.2)
      rcases List.mem_cons.1 he with rfl | he
      · exact hk
      · exact Std.TransCmp.lt_trans hk (h.1 e he)
    · rename_i hk
      exact .cons (fun e he => Std.TransCmp.lt_of_eq_of_lt hk (h.1 e he)) h.2
    · rename_i hk
      refine .cons (fun e he => ?_) (ih h.2)
      rcases mem_insertEntry he with rfl | he
      · exact Std.OrientedCmp.gt_iff_lt.1 hk
      · exact h.1 e he

/-- An entry with the same key is replaced. -/
def insert [Std.TransOrd α] (m : Dict α β) (k : α) (v : β) : Dict α β :=
  ⟨insertEntry k v m.entries, insertEntry_ascending k v m.ascending⟩

def filter (m : Dict α β) (p : α → β → Bool) : Dict α β :=
  ⟨m.entries.filter fun e => p e.1 e.2, m.ascending.filter _⟩

def erase (m : Dict α β) (k : α) : Dict α β := m.filter fun a _ => compare k a != .eq

def map (m : Dict α β) (f : α → β → γ) : Dict α γ :=
  ⟨m.entries.map fun e => (e.1, f e.1 e.2), List.pairwise_map.2 m.ascending⟩

/-- Of two entries with one key the later counts. -/
def ofList [Std.TransOrd α] (l : List (α × β)) : Dict α β :=
  l.foldl (fun m e => m.insert e.1 e.2) empty

@[simp] theorem get?_empty (k : α) : (∅ : Dict α β).get? k = none := rfl

section Lookup

private theorem compare_eq_iff [Std.LawfulEqOrd α] {a b : α} : compare a b = .eq ↔ a = b :=
  ⟨Std.LawfulEqOrd.eq_of_compare, fun h => h ▸ Std.ReflCmp.compare_self⟩

private theorem not_lt_self [Std.LawfulEqOrd α] {a : α} : compare a a ≠ .lt := by
  rw [compare_eq_iff.2 rfl]
  decide

private theorem nodup_of_ascending [Std.LawfulEqOrd α] {l : List (α × β)}
    (h : l.Pairwise fun a b => compare a.1 b.1 = .lt) : l.Nodup := by
  refine List.Pairwise.imp ?_ h
  rintro a b h rfl
  exact not_lt_self h

variable [DecidableEq α] [Std.LawfulEqOrd α]

private theorem lookup_cons (k a : α) (b : β) (l : List (α × β)) :
    lookup k ((a, b) :: l) = if k = a then some b else lookup k l := by
  simp only [lookup, compare_eq_iff]

private theorem lookup_insertEntry (k j : α) (v : β) (l : List (α × β)) :
    lookup j (insertEntry k v l) = if j = k then some v else lookup j l := by
  induction l with
  | nil => rw [insertEntry, lookup_cons]
  | cons x rest ih =>
    obtain ⟨a, b⟩ := x
    unfold insertEntry
    split
    · rw [lookup_cons]
    · rename_i h
      rw [compare_eq_iff] at h
      subst h
      rw [lookup_cons, lookup_cons]
      split <;> rfl
    · rename_i h
      have : k ≠ a := by
        rintro rfl
        rw [compare_eq_iff.2 rfl] at h
        cases h
      rw [lookup_cons, ih, lookup_cons]
      split <;> split <;> simp_all

theorem get?_insert [Std.TransOrd α] (m : Dict α β) (k j : α) (v : β) :
    (m.insert k v).get? j = if j = k then some v else m.get? j :=
  lookup_insertEntry k j v m.entries

@[simp] theorem get?_insert_self [Std.TransOrd α] (m : Dict α β) (k : α) (v : β) :
    (m.insert k v).get? k = some v := by
  rw [get?_insert, if_pos rfl]

private theorem lookup_filter (j : α) (p : α → Bool) (l : List (α × β)) :
    lookup j (l.filter fun e => p e.1) = if p j then lookup j l else none := by
  induction l with
  | nil => simp [lookup]
  | cons x rest ih =>
    obtain ⟨a, b⟩ := x
    rw [List.filter_cons]
    split
    · rename_i h
      rw [lookup_cons, lookup_cons, ih]
      split
      · rename_i e
        rw [e, if_pos h]
      · rfl
    · rename_i h
      rw [ih, lookup_cons]
      split
      · rename_i h'
        rw [if_neg (fun e : j = a => h (e ▸ h'))]
      · rfl

theorem get?_erase (m : Dict α β) (k j : α) :
    (m.erase k).get? j = if j = k then none else m.get? j := by
  have h := lookup_filter j (fun a => compare k a != .eq) m.entries
  rw [show (m.erase k).get? j = _ from h]
  by_cases e : j = k
  · subst e
    simp
  · have : compare k j ≠ .eq := fun h => e (compare_eq_iff.1 h).symm
    simp [e, this, get?]

private theorem lookup_eq_some_iff {k : α} {v : β} {l : List (α × β)}
    (h : l.Pairwise fun a b => compare a.1 b.1 = .lt) : lookup k l = some v ↔ (k, v) ∈ l := by
  induction l with
  | nil => simp [lookup]
  | cons x rest ih =>
    obtain ⟨a, b⟩ := x
    rw [List.pairwise_cons] at h
    rw [lookup_cons, List.mem_cons]
    split
    · rename_i e
      subst e
      refine ⟨fun e => .inl (by cases e; rfl), fun e => ?_⟩
      rcases e with e | e
      · cases e
        rfl
      · exact absurd (h.1 _ e) not_lt_self
    · rename_i e
      rw [ih h.2]
      exact ⟨.inr, fun k => k.resolve_left fun h => e (congrArg Prod.fst h)⟩

theorem get?_eq_some_iff {m : Dict α β} {k : α} {v : β} :
    m.get? k = some v ↔ (k, v) ∈ m.entries := lookup_eq_some_iff m.ascending

/-- Maps are told apart by their look-ups alone. -/
theorem ext [Std.TransOrd α] {m n : Dict α β} (h : ∀ k, m.get? k = n.get? k) : m = n := by
  have mem (e : α × β) : e ∈ m.entries ↔ e ∈ n.entries := by
    rw [← get?_eq_some_iff, ← get?_eq_some_iff, h]
  have perm : m.entries.Perm n.entries :=
    (List.perm_ext_iff_of_nodup (nodup_of_ascending m.ascending)
      (nodup_of_ascending n.ascending)).2 mem
  exact ext_entries (perm.eq_of_pairwise
    (fun a b _ _ (hab : compare a.1 b.1 = .lt) (hba : compare b.1 a.1 = .lt) =>
      absurd (Std.TransCmp.lt_trans hab hba) not_lt_self)
    m.ascending n.ascending)

end Lookup

end Dict

end TableAlteration
