import TableAlteration.Proofs.Edit.Rows

namespace TableAlteration

variable {t : Table} {home : Uid → Option Nat} {k l : List Planned} {p : Planned} {u : Uid}
  {f : Field} {s s' : Option Field} {d d' : Draft}

/-- A field of the table is never inserted, any other is inserted first; nothing follows a removal.
-/
structure Living (t : Table) (home : Uid → Option Nat) (l : List Planned) : Prop where
  existing : ∀ u i, home u = some i → (∃ f, t.fields[i]? = some f) ∧ Lives (editsOf u l)
  inserted : ∀ u, home u = none → editsOf u l = [] ∨
    ∃ p h j f, editsOf u l = p :: h ∧ p.action = .insert u j f ∧ Lives h

/-- At each edit its field is there, unless the edit inserts it. -/
theorem Living.before (hl : Living t home (k ++ p :: l)) (hs : fate t home k p.uid = .ok s) :
    p.action.isInsertion = true ∧ s = none ∨ p.action.isInsertion = false ∧ ∃ f, s = some f := by
  have hp : editsOf p.uid (k ++ p :: l) = editsOf p.uid k ++ p :: editsOf p.uid l := by
    rw [editsOf_append, editsOf_cons, if_pos rfl]
  unfold fate at hs
  cases hu : home p.uid with
  | some i =>
    obtain ⟨⟨f, hf⟩, hlives⟩ := hl.existing p.uid i hu
    rw [hp] at hlives
    have hstart : start t home p.uid = some f := by simp [start, hu, hf]
    rw [hstart] at hs
    exact .inr ⟨hlives.before.1, effects_of_lives hlives hs⟩
  | none =>
    rw [start_of_home_eq_none hu] at hs
    rcases hl.inserted p.uid hu with he | ⟨q, h, j, f, he, hq, hlives⟩
    · rw [hp] at he
      exact absurd he (by simp)
    · rw [hp] at he
      cases hk : editsOf p.uid k with
      | nil =>
        rw [hk, List.nil_append] at he
        rw [hk] at hs
        cases hs
        rw [← (List.cons_eq_cons.1 he).1] at hq
        exact .inl ⟨by rw [hq]; rfl, rfl⟩
      | cons q' k' =>
        rw [hk, List.cons_append, List.cons_eq_cons] at he
        obtain ⟨rfl, rfl⟩ := he
        rw [hk] at hs
        obtain ⟨s1, h1, h2⟩ := foldlM_cons_eq_ok.1 hs
        rw [Planned.effect_of_insertion hq] at h1
        cases h1
        exact .inr ⟨hlives.before.1, effects_of_lives hlives h2⟩

namespace Tracks

/-- An edit that its field takes is taken by the draft. -/
theorem apply (hn : t.NamesDistinct) (ha : Addressed t home (k ++ p :: l))
    (h : Tracks t home k d.rows) (hs : fate t home k p.uid = .ok s) (he : p.effect s = .ok s') :
    ∃ d', d.apply p = .ok d' ∧ Tracks t home (k ++ [p]) d'.rows := by
  cases hp : p.action.isInsertion with
  | true =>
    have hu := ha.inserted p (by simp) hp
    cases hact : p.action with
    | insert v j f =>
      cases s with
      | some g => simp [Planned.effect, hact] at he
      | none =>
        rw [Planned.effect_of_insertion hact] at he
        cases he
        obtain ⟨d', hd', hperm⟩ := d.apply_insertion hact
        refine ⟨d', hd', h.snoc ha.distinct hs (Planned.effect_of_insertion hact) (.refl _) ?_⟩
        rw [Option.map_some, rowOf_snoc, originOf_of_home_eq_none hu]
        exact hperm
    | _ => simp [hact, Action.isInsertion] at hp
  | false =>
    cases s with
    | none =>
      unfold Planned.effect at he
      cases hact : p.action with
      | insert => simp [hact, Action.isInsertion] at hp
      | _ => simp [hact] at he
    | some f =>
      obtain ⟨i, hi, hres⟩ := h.resolve hn ha hs
      obtain ⟨hlt, hget⟩ := List.getElem?_eq_some_iff.1 hi
      have he' : p.effect (some (rowOf t home (k ++ [p]) p.uid f).field) = .ok s' := he
      obtain ⟨d', hd', hperm⟩ := Draft.apply_of_effect hp hres hlt he'
      have hold : d.rows.Perm
          (((some f).map (rowOf t home k p.uid)).toList ++ d.rows.eraseIdx i) := by
        rw [Option.map_some, ← hget]
        exact (List.getElem_cons_eraseIdx_perm hlt).symm
      refine ⟨d', hd', h.snoc ha.distinct hs he hold ?_⟩
      have hrow : (fun g => { rowOf t home (k ++ [p]) p.uid f with field := g }) =
          rowOf t home (k ++ [p]) p.uid := by
        funext g
        rw [rowOf_snoc, rowOf_snoc]
      rwa [hrow] at hperm

/-- And one that the draft takes is taken by its field. -/
theorem effect (hn : t.NamesDistinct) (ha : Addressed t home (k ++ p :: l))
    (hl : Living t home (k ++ p :: l)) (h : Tracks t home k d.rows)
    (hs : fate t home k p.uid = .ok s) (hd : d.apply p = .ok d') : ∃ s', p.effect s = .ok s' := by
  rcases hl.before hs with ⟨hp, rfl⟩ | ⟨hp, f, rfl⟩
  · cases hact : p.action with
    | insert u j f => exact ⟨some f, Planned.effect_of_insertion hact⟩
    | _ => simp [hact, Action.isInsertion] at hp
  · obtain ⟨i, -, hres⟩ := h.resolve hn ha hs
    exact Draft.effect_of_apply hp hres hd

/-- If the edits of each field come to an end, the whole run does. -/
theorem applyAll (hn : t.NamesDistinct) (ha : Addressed t home (k ++ l))
    (h : Tracks t home k d.rows) (hf : ∀ u, ∃ s, fate t home (k ++ l) u = .ok s) :
    ∃ d', d.applyAll l = .ok d' ∧ Tracks t home (k ++ l) d'.rows := by
  induction l generalizing k d with
  | nil =>
    rw [List.append_nil]
    exact ⟨d, rfl, h⟩
  | cons p l ih =>
    obtain ⟨s, hs⟩ := h.fates p.uid
    have hassoc : k ++ p :: l = k ++ [p] ++ l := by simp
    obtain ⟨s1, hs1⟩ := hf p.uid
    rw [hassoc] at hs1 hf
    obtain ⟨s', hs'⟩ := fate_before hs1
    obtain ⟨d1, hd1, h1⟩ := h.apply hn ha hs (effect_of_fates hs hs')
    rw [hassoc] at ha ⊢
    obtain ⟨d', hd', h'⟩ := ih ha h1 hf
    exact ⟨d', foldlM_cons_eq_ok.2 ⟨d1, hd1, hd'⟩, h'⟩

/-- If the whole run comes to an end, the edits of each field do. -/
theorem of_applyAll (hn : t.NamesDistinct) (ha : Addressed t home (k ++ l))
    (hl : Living t home (k ++ l)) (h : Tracks t home k d.rows) (hd : d.applyAll l = .ok d') :
    Tracks t home (k ++ l) d'.rows := by
  induction l generalizing k d with
  | nil =>
    cases hd
    rwa [List.append_nil]
  | cons p l ih =>
    obtain ⟨d1, hd1, hd⟩ := foldlM_cons_eq_ok.1 hd
    obtain ⟨s, hs⟩ := h.fates p.uid
    obtain ⟨s', he⟩ := h.effect hn ha hl hs hd1
    obtain ⟨d2, hd2, h1⟩ := h.apply hn ha hs he
    have hd2 := hd2.symm.trans hd1
    cases hd2
    have hassoc : k ++ p :: l = k ++ [p] ++ l := by simp
    rw [hassoc] at ha hl ⊢
    exact ih ha hl h1 hd

end Tracks

def Field.folded (f : Field) : Field := { f with name := Text.fold f.name }

/-- What tells a row from the others: the column its data comes from, or the number of an inserted
field. -/
def Row.key (r : Row) : Option Origin × Option Uid :=
  (r.origin, if r.origin = none then r.uid else none)

/-- What a row holds: the column its data comes from, or the number of an inserted field, and the
definition, with the case of the name left out. -/
def Row.content (r : Row) : Option Origin × Option Uid × Field :=
  (r.origin, if r.origin = none then r.uid else none, r.field.folded)

theorem key_of_content {r r' : Row} (e : r.content = r'.content) : r.key = r'.key := by
  simp only [Row.content, Prod.mk.injEq] at e
  obtain ⟨ho, hu, -⟩ := e
  exact Prod.ext ho hu

theorem key_rowOf (hf : fate t home l u = .ok (some f)) :
    (rowOf t home l u f).key = Row.key ⟨f, some u, originOf t home u⟩ := by
  unfold rowOf
  split
  · rename_i he
    rw [fate_of_no_edits he] at hf
    obtain ⟨i, -, -, ho⟩ := start_eq_some (Except.ok.inj hf)
    simp [Row.key, ho]
  · rfl

theorem content_rowOf (hf : fate t home l u = .ok (some f)) :
    (rowOf t home l u f).content = Row.content ⟨f, some u, originOf t home u⟩ := by
  have hkey := key_rowOf hf
  obtain ⟨ho, hu⟩ := Prod.mk.inj hkey
  unfold Row.content
  rw [hu, ho]
  rfl

namespace Tracks

variable {rows rows' : List Row} {l' : List Planned}

theorem key_injOn (hd : ∀ u v i, home u = some i → home v = some i → u = v)
    (h : Tracks t home l rows) {r r' : Row} (hr : r ∈ rows) (hr' : r' ∈ rows)
    (e : r.key = r'.key) : r = r' := by
  obtain ⟨ho, hu⟩ := Prod.mk.inj e
  cases (h.mem r).1 hr with
  | @edited u f hne hf =>
    cases (h.mem r').1 hr' with
    | @edited v g hne' hg =>
      have huv : u = v := by
        cases hou : originOf t home u with
        | none =>
          rw [hou] at ho hu
          rw [← ho] at hu
          exact Option.some.inj hu
        | some o =>
          have hov : originOf t home v = some o := ho.symm.trans hou
          exact hd u v _ (originOf_eq_some hou) (originOf_eq_some hov)
      subst huv
      rw [hf] at hg
      cases hg
      rfl
    | untouched hi he => exact absurd (he u (originOf_eq_some ho)) hne
  | @untouched i f hi he =>
    cases (h.mem r').1 hr' with
    | edited hne hf => exact absurd (he _ (originOf_eq_some ho.symm)) hne
    | @untouched j g hj =>
      obtain ⟨-, rfl⟩ := Origin.mk.inj (Option.some.inj ho)
      rw [hi] at hj
      cases hj
      rfl

theorem key_nodup (hd : ∀ u v i, home u = some i → home v = some i → u = v)
    (h : Tracks t home l rows) : (rows.map Row.key).Nodup :=
  List.Nodup.map_on (fun _ hr _ hr' e => h.key_injOn hd hr hr' e) h.nodup

theorem content_nodup (hd : ∀ u v i, home u = some i → home v = some i → u = v)
    (h : Tracks t home l rows) : (rows.map Row.content).Nodup :=
  List.Nodup.map_on (fun _ hr _ hr' e => h.key_injOn hd hr hr' (key_of_content e)) h.nodup

/-- What is seen of the rows of one draft is seen of those of another one if that is so for the
fields of the edits, for the rows that no edit concerns are in both. -/
theorem map_subset {β : Type} {g : Row → β} (h : Tracks t home l rows) (h' : Tracks t home l' rows')
    (hbind : ∀ f o u, g ⟨f, none, some o⟩ = g ⟨f, some u, some o⟩)
    (found : ∀ u f, fate t home l u = .ok (some f) →
      g ⟨f, some u, originOf t home u⟩ ∈ rows'.map g) {c : β} (hc : c ∈ rows.map g) :
    c ∈ rows'.map g := by
  obtain ⟨r, hr, rfl⟩ := List.mem_map.1 hc
  cases (h.mem r).1 hr with
  | edited hne hf => exact found _ _ hf
  | @untouched i f hi hne =>
    by_cases hu : ∃ u, home u = some i
    · obtain ⟨u, hu⟩ := hu
      have hf : fate t home l u = .ok (some f) := by
        rw [fate_of_no_edits (hne u hu)]
        simp [start, hu, hi]
      have ho : originOf t home u = some ⟨f.name, i⟩ := by simp [originOf, hu, hi]
      have hm := found u f hf
      rwa [ho, ← hbind] at hm
    · have hu' : ∀ u, home u = some i → editsOf u l' = [] := fun u h => absurd ⟨u, h⟩ hu
      exact List.mem_map_of_mem ((h'.mem _).2 (.untouched hi hu'))

theorem content_subset (hd : ∀ u v i, home u = some i → home v = some i → u = v)
    (h : Tracks t home l rows) (h' : Tracks t home l' rows')
    (he : ∀ u s s', fate t home l u = .ok s → fate t home l' u = .ok s' →
      s.map Field.folded = s'.map Field.folded)
    {c : Option Origin × Option Uid × Field} (hc : c ∈ rows.map Row.content) :
    c ∈ rows'.map Row.content := by
  refine h.map_subset h' (fun _ _ _ => rfl) (fun u f hf => ?_) hc
  obtain ⟨s', hs'⟩ := h'.fates u
  obtain ⟨g, rfl, hg⟩ := Option.map_eq_some_iff.1 (he u _ _ hf hs').symm
  refine List.mem_map.2 ⟨_, h'.mem_rowOf hd hs', ?_⟩
  rw [content_rowOf hs']
  simp only [Row.content, hg]

/-- Lists under which all fields end alike leave the same rows, in some order. -/
theorem content_perm (hd : ∀ u v i, home u = some i → home v = some i → u = v)
    (h : Tracks t home l rows) (h' : Tracks t home l' rows')
    (he : ∀ u s s', fate t home l u = .ok s → fate t home l' u = .ok s' →
      s.map Field.folded = s'.map Field.folded) :
    (rows.map Row.content).Perm (rows'.map Row.content) := by
  refine (List.perm_ext_iff_of_nodup (h.content_nodup hd) (h'.content_nodup hd)).2 fun c => ?_
  refine ⟨h.content_subset hd h' he, h'.content_subset hd h fun u s s' hs hs' => ?_⟩
  exact (he u s' s hs' hs).symm

end Tracks

end TableAlteration
