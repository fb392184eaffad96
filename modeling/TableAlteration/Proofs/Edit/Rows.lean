import TableAlteration.Proofs.Edit.Drafts

namespace TableAlteration

section Homes

variable (t : Table) (home : Uid → Option Nat) (l : List Planned)

/-- The rows of a draft after the edits. -/
inductive IsRow : Row → Prop where
  | edited {u f} : editsOf u l ≠ [] → fate t home l u = .ok (some f) →
      IsRow ⟨f, some u, originOf t home u⟩
  | untouched {i f} : t.fields[i]? = some f → (∀ u, home u = some i → editsOf u l = []) →
      IsRow ⟨f, none, some ⟨f.name, i⟩⟩

/-- The row of a field after the edits, if they have made `f` of it. -/
def rowOf (u : Uid) (f : Field) : Row :=
  ⟨f, if editsOf u l = [] then none else some u, originOf t home u⟩

structure Tracks (rows : List Row) : Prop where
  nodup : rows.Nodup
  mem : ∀ r, r ∈ rows ↔ IsRow t home l r
  fates : ∀ u, ∃ s, fate t home l u = .ok s

/-- Numbers stand for fields of the table or for inserted ones, different numbers for different
fields, and the first edit of a field of the table has its name. -/
structure Addressed : Prop where
  distinct : ∀ u v i, home u = some i → home v = some i → u = v
  named : ∀ u i p h, home u = some i → editsOf u l = p :: h →
    ∃ f, t.fields[i]? = some f ∧ Text.sameName p.action.fieldName f.name
  inserted : ∀ p ∈ l, p.action.isInsertion → home p.uid = none

end Homes

def Row.IsOf (home : Uid → Option Nat) (u : Uid) (r : Row) : Prop :=
  r.uid = some u ∨ r.uid = none ∧ ∃ o, r.origin = some o ∧ home u = some o.position

section Steps

variable {t : Table} {home : Uid → Option Nat} {k l : List Planned} {p : Planned} {u : Uid}
  {rows rows' rest : List Row} {r : Row} {f : Field} {s s' : Option Field} {d d' : Draft}

theorem start_eq_some (h : start t home u = some f) :
    ∃ i, home u = some i ∧ t.fields[i]? = some f ∧ originOf t home u = some ⟨f.name, i⟩ := by
  obtain ⟨i, hi, hf⟩ := Option.bind_eq_some_iff.1 h
  exact ⟨i, hi, hf, by simp [originOf, hi, hf]⟩

theorem rowOf_snoc (k : List Planned) (p : Planned) (f : Field) :
    rowOf t home (k ++ [p]) p.uid f = ⟨f, some p.uid, originOf t home p.uid⟩ := by
  unfold rowOf
  rw [editsOf_snoc_self, if_neg (by simp)]

/-- A field has one row at most. -/
theorem isRow_isOf_iff (hd : ∀ u v i, home u = some i → home v = some i → u = v) :
    IsRow t home l r ∧ r.IsOf home u ↔
      ∃ f, fate t home l u = .ok (some f) ∧ r = rowOf t home l u f := by
  constructor
  · intro h
    obtain ⟨h, hu⟩ := h
    cases h with
    | @edited v f he hf =>
      rcases hu with hu | ⟨hu, -⟩
      · cases hu
        exact ⟨f, hf, by rw [rowOf, if_neg he]⟩
      · cases hu
    | @untouched i f hi he =>
      rcases hu with hu | ⟨-, o, ho, hu⟩
      · cases hu
      · cases ho
        have hstart : start t home u = some f := by simp [start, hu, hi]
        have he := he u hu
        refine ⟨f, by rw [fate_of_no_edits he, hstart], ?_⟩
        rw [rowOf, if_pos he, originOf, hu]
        simp [hi]
  · intro h
    obtain ⟨f, hf, rfl⟩ := h
    by_cases he : editsOf u l = []
    · rw [fate_of_no_edits he] at hf
      obtain ⟨i, hi, hfi, ho⟩ := start_eq_some (Except.ok.inj hf)
      rw [rowOf, if_pos he, ho]
      refine ⟨.untouched hfi fun v hv => ?_, .inr ⟨rfl, _, rfl, hi⟩⟩
      rw [hd v u i hv hi, he]
    · rw [rowOf, if_neg he]
      exact ⟨.edited he hf, .inl rfl⟩

/-- An edit leaves the rows of all other fields alone. -/
theorem isRow_snoc_iff (hr : ¬ r.IsOf home p.uid) :
    IsRow t home (k ++ [p]) r ↔ IsRow t home k r := by
  constructor
  · intro h
    cases h with
    | @edited v f he hf =>
      have hv : v ≠ p.uid := fun e => hr (.inl (congrArg some e))
      rw [editsOf_snoc_of_ne hv] at he
      rw [fate_snoc_of_ne hv] at hf
      exact .edited he hf
    | @untouched i f hi he =>
      refine .untouched hi fun v hv => ?_
      have h' := he v hv
      rw [editsOf_append] at h'
      exact (List.append_eq_nil_iff.1 h').1
  · intro h
    cases h with
    | @edited v f he hf =>
      have hv : v ≠ p.uid := fun e => hr (.inl (congrArg some e))
      rw [← editsOf_snoc_of_ne hv] at he
      rw [← fate_snoc_of_ne hv] at hf
      exact .edited he hf
    | @untouched i f hi he =>
      refine .untouched hi fun v hv => ?_
      have hne : v ≠ p.uid := by
        intro h
        subst h
        exact hr (.inr ⟨rfl, _, rfl, hv⟩)
      rw [editsOf_snoc_of_ne hne]
      exact he v hv

/-- The row of the edited field is exchanged for what the edit makes of it. -/
theorem Tracks.snoc (hd : ∀ u v i, home u = some i → home v = some i → u = v)
    (h : Tracks t home k rows) (hs : fate t home k p.uid = .ok s) (he : p.effect s = .ok s')
    (hold : rows.Perm ((s.map (rowOf t home k p.uid)).toList ++ rest))
    (hnew : rows'.Perm ((s'.map (rowOf t home (k ++ [p]) p.uid)).toList ++ rest)) :
    Tracks t home (k ++ [p]) rows' := by
  have hs' : fate t home (k ++ [p]) p.uid = .ok s' := fate_snoc_self hs he
  have hnodup : ((s.map (rowOf t home k p.uid)).toList ++ rest).Nodup := hold.nodup_iff.1 h.nodup
  have mem_old : ∀ {r : Row}, r ∈ (s.map (rowOf t home k p.uid)).toList ↔
      IsRow t home k r ∧ r.IsOf home p.uid := by
    intro r
    rw [isRow_isOf_iff hd, hs]
    simp [eq_comm]
  have mem_new : ∀ {r : Row}, r ∈ (s'.map (rowOf t home (k ++ [p]) p.uid)).toList ↔
      IsRow t home (k ++ [p]) r ∧ r.IsOf home p.uid := by
    intro r
    rw [isRow_isOf_iff hd, hs']
    simp [eq_comm]
  have mem_rest : ∀ {r : Row}, r ∈ rest ↔ IsRow t home (k ++ [p]) r ∧ ¬ r.IsOf home p.uid := by
    intro r
    constructor
    · intro hr
      have hk : IsRow t home k r := (h.mem r).1 (hold.mem_iff.2 (List.mem_append_right _ hr))
      have hu : ¬ r.IsOf home p.uid := fun hu =>
        List.disjoint_of_nodup_append hnodup (mem_old.2 ⟨hk, hu⟩) hr
      exact ⟨(isRow_snoc_iff hu).2 hk, hu⟩
    · intro h
      obtain ⟨hr, hu⟩ := h
      have hk := hold.mem_iff.1 ((h.mem r).2 ((isRow_snoc_iff hu).1 hr))
      exact (List.mem_append.1 hk).resolve_left fun ho => hu (mem_old.1 ho).2
  constructor
  · rw [hnew.nodup_iff]
    refine List.Nodup.append ?_ (List.nodup_append.1 hnodup).2.1 ?_
    · cases s' <;> simp
    · intro r hr hr'
      exact (mem_rest.1 hr').2 (mem_new.1 hr).2
  · intro r
    rw [hnew.mem_iff, List.mem_append, mem_new, mem_rest]
    tauto
  · intro u
    by_cases hu : u = p.uid
    · exact ⟨s', hu ▸ hs'⟩
    · rw [fate_snoc_of_ne hu]
      exact h.fates u

theorem tracks_of_table (t : Table) (home : Uid → Option Nat) :
    Tracks t home [] (Draft.of t).rows := by
  have hnodup : t.fields.zipIdx.Nodup := by
    apply List.Nodup.of_map Prod.snd
    rw [List.zipIdx_map_snd]
    exact List.nodup_range'
  refine ⟨?_, fun r => ?_, fun u => ⟨_, rfl⟩⟩
  · refine List.Nodup.map_on ?_ hnodup
    intro x _ y _ e
    obtain ⟨f, i⟩ := x
    obtain ⟨g, j⟩ := y
    simp only [Row.mk.injEq, Option.some.injEq, Origin.mk.injEq] at e
    rw [e.1, e.2.2.2]
  · rw [Draft.of, List.mem_map]
    constructor
    · intro h
      obtain ⟨⟨f, i⟩, hi, rfl⟩ := h
      exact .untouched (List.mk_mem_zipIdx_iff_getElem?.1 hi) fun _ _ => rfl
    · intro h
      cases h with
      | edited he => exact absurd rfl he
      | @untouched i f hi => exact ⟨(f, i), List.mk_mem_zipIdx_iff_getElem?.2 hi, rfl⟩

theorem Tracks.mem_rowOf (hd : ∀ u v i, home u = some i → home v = some i → u = v)
    (h : Tracks t home k rows) (hf : fate t home k u = .ok (some f)) :
    rowOf t home k u f ∈ rows :=
  (h.mem _).2 ((isRow_isOf_iff hd).2 ⟨f, hf, rfl⟩).1

/-- An edit finds the row of its field. -/
theorem Tracks.resolve (hn : t.NamesDistinct) (ha : Addressed t home (k ++ p :: l))
    (h : Tracks t home k d.rows) (hf : fate t home k p.uid = .ok (some f)) :
    ∃ i, d.rows[i]? = some (rowOf t home k p.uid f) ∧
      d.resolve p.uid p.action.fieldName = .ok (i, rowOf t home (k ++ [p]) p.uid f) := by
  have hmem := h.mem_rowOf ha.distinct hf
  -- a row that is not bound yet has the name that the edit uses
  have hname : editsOf p.uid k = [] → ∃ i, home p.uid = some i ∧ t.fields[i]? = some f ∧
      Text.sameName p.action.fieldName f.name := by
    intro he
    rw [fate_of_no_edits he] at hf
    obtain ⟨i, hi, hfi, -⟩ := start_eq_some (Except.ok.inj hf)
    have hp : editsOf p.uid (k ++ p :: l) = p :: editsOf p.uid l := by
      rw [editsOf_append, he, editsOf_cons, if_pos rfl, List.nil_append]
    obtain ⟨f', hf', hsame⟩ := ha.named _ _ _ _ hi hp
    rw [hfi] at hf'
    cases hf'
    exact ⟨i, hi, hfi, hsame⟩
  have hres : ∃ i q, d.resolve p.uid p.action.fieldName = .ok (i, q) := by
    apply Draft.resolve_ok hmem
    by_cases he : editsOf p.uid k = []
    · obtain ⟨i, -, -, hsame⟩ := hname he
      exact .inr ⟨by rw [rowOf, if_pos he], by rwa [Text.sameName_comm]⟩
    · exact .inl (by rw [rowOf, if_neg he])
  obtain ⟨i, r, hres⟩ := hres
  obtain ⟨q, hq, rfl, hfound⟩ := Draft.resolve_eq_ok hres
  have hqrow : IsRow t home k q := (h.mem q).1 (List.mem_of_getElem? hq)
  have hqof : q.IsOf home p.uid := by
    rcases hfound with hu | ⟨hnone, hu, hsame⟩
    · exact .inl hu
    · refine .inr ⟨hu, ?_⟩
      have he : editsOf p.uid k = [] := by
        by_contra he
        exact hnone _ hmem (by rw [rowOf, if_neg he])
      obtain ⟨j, hj, hfj, hsame'⟩ := hname he
      cases hqrow with
      | edited => cases hu
      | @untouched i' g hi' =>
        refine ⟨_, rfl, ?_⟩
        rw [hj]
        refine congrArg some (hn.eq_of_sameName hfj hi' ?_)
        rw [Text.sameName_iff] at hsame hsame' ⊢
        exact (hsame.trans hsame').symm
  obtain ⟨g, hg, rfl⟩ := (isRow_isOf_iff ha.distinct).1 ⟨hqrow, hqof⟩
  rw [hf] at hg
  cases hg
  refine ⟨i, hq, ?_⟩
  rw [hres, rowOf_snoc]
  rfl

end Steps

end TableAlteration
