import TableAlteration.Proofs.Edit.Nullability
import TableAlteration.Proofs.Edit.Provenance

namespace TableAlteration

namespace Record

variable {u : Uid} {h : List Planned} {p : Planned} {r s : Record} {t : Table} {f : Field}

def changes (r : Record) : List Action := r.definitionChanges.map Planned.action

theorem Tidy.not_insertion_of_change (hr : r.Tidy u) :
    ∀ q ∈ r.definitionChanges, q.action.isInsertion = false := by
  intro q hq
  rw [← hr.filter_isChange] at hq
  have hchange := (List.mem_filter.1 hq).2
  cases ha : q.action with
  | insert => simp [ha, Action.isChange] at hchange
  | _ => rfl

theorem sameWord_changes_withFieldName (r : Record) (n : String) :
    SameWord (r.withFieldName n).changes r.changes := by
  have hword := sameWord_withFieldName r.changes n
  rw [changes, List.map_map] at hword
  rw [changes, definitionChanges_withFieldName, List.map_map]
  exact hword

/-- An idle rename says nothing of null. -/
theorem Tidy.sameWord_settled (hr : r.Tidy u) : SameWord r.settled.changes r.changes := by
  by_cases hi : r.renamesIdly
  · have hfilter : r.settled.changes = r.changes.filter fun a => !a.isRename := by
      rw [changes, hr.definitionChanges_settled hi, changes, List.filter_map]
      rfl
    rw [hfilter]
    refine sameWord_filter fun a _ hs => ?_
    have hrename : a.isRename := by simpa using hs
    refine ⟨?_, quiet_of_rename hrename⟩
    obtain ⟨v, n, k, x, rfl, -⟩ := isRename_iff.1 hrename
    rfl
  · rw [Record.settled, if_neg hi]
    exact .refl _

/-- The later change of a property speaks of null if the earlier one does. -/
theorem Tidy.not_silent_of_recorded (hr : r.Tidy u) {v : Uid} {fd n : String} {x : Value}
    (ha : p.action = .change v fd n x) (hs : (r.properties.get? (Text.fold n)).isSome)
    (hp : p.action.speaksOfNull) : silentOnNull r.changes = false := by
  obtain ⟨c, hc⟩ := Option.isSome_iff_exists.1 hs
  obtain ⟨fd', n', x', hca, hn, -⟩ := hr.properties _ c hc
  have hmem : c ∈ r.definitionChanges := mem_definitionChanges.2 (.inr ⟨_, hc⟩)
  refine silentOnNull_of_mem (a := c.action) ?_ (List.mem_map_of_mem hmem) ?_
  · intro b hb
    obtain ⟨q, hq, rfl⟩ := List.mem_map.1 hb
    exact hr.not_insertion_of_change q hq
  · rw [ha, Action.speaksOfNull] at hp
    rw [hca, Action.speaksOfNull, Property.ofName?_congr hn]
    exact hp

/-- A change or a move of a field that is not removed adds its word. -/
theorem Absorbs.sameWord (ha : Absorbs p s r) (hs : s.Tidy u)
    (hlt : ∀ q ∈ s.definitionChanges, p.order < q.order) (hi : p.action.isInsertion = false)
    (hp : p.action.isRemoval = false) (hnone : s.removal = none) :
    r.removal = none ∧ SameWord r.changes (p.action :: s.changes) := by
  have hquiet (hq : p.action.speaksOfNull = false) : SameWord s.changes (p.action :: s.changes) :=
    (sameWord_of_quiet hi hq _).symm
  cases ha with
  | @rename v fd n x ha hn h1 h2 =>
    refine ⟨by simp [withFieldName, hnone], (sameWord_changes_withFieldName ..).trans ?_⟩
    rw [changes, definitionChanges_rename h1 hlt]
    exact .refl _
  | @merge v fd n x ha hn h1 =>
    have hrename : p.action.isRename := by
      rw [ha]
      exact hn
    refine ⟨by simp [withFieldName, hnone], ?_⟩
    exact (sameWord_changes_withFieldName ..).trans (hquiet (quiet_of_rename hrename))
  | change ha hn h1 h2 =>
    refine ⟨hnone, ?_⟩
    rw [changes, definitionChanges_insert h2 hlt]
    exact .refl _
  | @overwritten v fd n x ha hn h1 =>
    refine ⟨hnone, ?_⟩
    cases hspeaks : p.action.speaksOfNull with
    | false => exact hquiet hspeaks
    | true =>
      have hrecorded := h1.resolve_left (by simp [hnone])
      exact (sameWord_of_spoken hi (hs.not_silent_of_recorded ha hrecorded hspeaks)).symm
  | remove ha => simp [ha, Action.isRemoval] at hp
  | cancel ha | insert ha => simp [ha, Action.isInsertion] at hi
  | move ha => exact ⟨hnone, hquiet (by rw [ha]; rfl)⟩
  | superseded ha => exact ⟨hnone, hquiet (by rw [ha]; rfl)⟩

/-- Before a removal no change is recorded any more. -/
theorem Absorbs.sameWord_of_removed (ha : Absorbs p s r) (hi : p.action.isInsertion = false)
    (h : s.removal.isSome ∨ p.action.isRemoval) :
    r.removal.isSome ∧ SameWord r.changes s.changes := by
  have hsome : p.action.isRemoval = false → s.removal.isSome := fun hp =>
    h.resolve_right (by simp [hp])
  cases ha with
  | rename ha hn h1 h2 => simp [h2, ha, Action.isRemoval] at h
  | merge ha hn h1 =>
    refine ⟨?_, sameWord_changes_withFieldName ..⟩
    simpa [withFieldName] using hsome (by rw [ha]; rfl)
  | change ha hn h1 h2 => simp [h1, ha, Action.isRemoval] at h
  | overwritten ha => exact ⟨hsome (by rw [ha]; rfl), .refl _⟩
  | superseded ha => exact ⟨hsome (by rw [ha]; rfl), .refl _⟩
  | remove => exact ⟨rfl, .refl _⟩
  | cancel ha | insert ha => simp [ha, Action.isInsertion] at hi
  | move ha h1 => simp [h1, ha, Action.isRemoval] at h

/-- What was changed after an insertion is in the insertion. -/
theorem Absorbs.changes_of_insertion (ha : Absorbs p s r) (hi : p.action.isInsertion) :
    r.changes = [] := by
  cases ha with
  | cancel | insert => rfl
  | rename ha | merge ha | change ha | overwritten ha | remove ha | move ha | superseded ha =>
    simp [ha, Action.isInsertion] at hi

/-- The changes that are recorded have no other word than the whole history has. -/
theorem word_of_history (ho : h.Pairwise fun a b => a.order < b.order) (hu : ∀ q ∈ h, q.uid = u)
    (hr : ofHistory h = .ok r) :
    (endsNullable r.changes → endsNullable (h.map Planned.action)) ∧
      (r.removal = none → silentOnNull r.changes → silentOnNull (h.map Planned.action)) := by
  induction h generalizing r with
  | nil =>
    cases hr
    exact ⟨id, fun _ => id⟩
  | cons p h ih =>
    obtain ⟨s, hs, ha⟩ := ofHistory_cons.1 hr
    have hu' : ∀ q ∈ h, q.uid = u := fun q hq => hu q (List.mem_cons_of_mem p hq)
    obtain ⟨hends, hsilent⟩ := ih ho.of_cons hu' hs
    have hmore : endsNullable (h.map Planned.action) →
        endsNullable ((p :: h).map Planned.action) := by
      intro he
      rw [List.map_cons, endsNullable, he]
      exact Bool.or_true _
    cases hi : p.action.isInsertion with
    | true =>
      rw [ha.changes_of_insertion hi]
      exact ⟨fun he => (Bool.false_ne_true he).elim, fun _ _ => silentOnNull_cons_of_insertion hi⟩
    | false =>
      -- where a removal is recorded, what came before it need not be silent
      by_cases hrem : s.removal.isSome ∨ p.action.isRemoval
      · obtain ⟨hsome, hword⟩ := ha.sameWord_of_removed hi hrem
        refine ⟨fun he => hmore (hends (by rwa [← hword.ends])), fun hnone => ?_⟩
        rw [hnone] at hsome
        cases hsome
      · obtain ⟨hnone, hp⟩ : s.removal = none ∧ p.action.isRemoval = false := by
          simpa using hrem
        have hlt : ∀ q ∈ s.definitionChanges, p.order < q.order := fun q hq =>
          order_lt_of_history ho hs q (mem_toList_of_mem_definitionChanges hq)
        obtain ⟨-, hword⟩ := ha.sameWord (tidy_of_history hu' hs) hlt hi hp hnone
        have hsilent := hsilent hnone
        rw [hword.ends, hword.silent, List.map_cons, endsNullable, endsNullable, silentOnNull,
          silentOnNull, hi]
        simp only [Bool.or_eq_true, Bool.and_eq_true, Bool.false_or]
        exact ⟨Or.imp (And.imp_right hsilent) hends, fun _ => And.imp_right hsilent⟩

/-- And the same if the field is neither inserted nor removed. -/
theorem sameWord_of_history (ho : h.Pairwise fun a b => a.order < b.order)
    (hu : ∀ q ∈ h, q.uid = u)
    (hstays : ∀ q ∈ h, q.action.isInsertion = false ∧ q.action.isRemoval = false)
    (hr : ofHistory h = .ok r) : r.removal = none ∧ SameWord r.changes (h.map Planned.action) := by
  induction h generalizing r with
  | nil =>
    cases hr
    exact ⟨rfl, .refl []⟩
  | cons p h ih =>
    obtain ⟨s, hs, ha⟩ := ofHistory_cons.1 hr
    have hu' : ∀ q ∈ h, q.uid = u := fun q hq => hu q (List.mem_cons_of_mem p hq)
    obtain ⟨hnone, hword⟩ := ih ho.of_cons hu'
      (fun q hq => hstays q (List.mem_cons_of_mem p hq)) hs
    have hlt : ∀ q ∈ s.definitionChanges, p.order < q.order := fun q hq =>
      order_lt_of_history ho hs q (mem_toList_of_mem_definitionChanges hq)
    obtain ⟨hi, hp⟩ := hstays p List.mem_cons_self
    obtain ⟨hnone', hword'⟩ := ha.sameWord (tidy_of_history hu' hs) hlt hi hp hnone
    exact ⟨hnone', hword'.trans (hword.cons p.action)⟩

/-- A primary key that is inserted may not be null, whatever is folded into it, unless that ends
so. -/
theorem keyNotNull_of_history {i : Nat} {v : Uid}
    (ho : h.Pairwise fun a b => a.order < b.order) (hu : ∀ q ∈ h, q.uid = u)
    (hins : ∀ q ∈ h, ∀ v i f, q.action = .insert v i f → f.KeyNotNull)
    (hends : endsNullable (h.map Planned.action) = false) (hr : ofHistory h = .ok r)
    (hp : r.insertion = some p) (hf : p.action = .insert v i f) : f.KeyNotNull := by
  induction h generalizing r with
  | nil =>
    cases hr
    cases hp
  | cons q h ih =>
    obtain ⟨s, hs, ha⟩ := ofHistory_cons.1 hr
    have hu' : ∀ x ∈ h, x.uid = u := fun x hx => hu x (List.mem_cons_of_mem q hx)
    rw [List.map_cons, endsNullable, Bool.or_eq_false_iff] at hends
    have hrest : s.insertion = some p → f.KeyNotNull :=
      ih ho.of_cons hu' (fun x hx => hins x (List.mem_cons_of_mem q hx)) hends.2 hs
    cases ha with
    | cancel => cases hp
    | @insert w j d g ha hnone hg =>
      cases hp
      cases hf
      have tidy := tidy_of_history hu' hs
      refine keyNotNull_of_changes tidy.not_insertion_of_change ?_ ?_ hg
      · have hword := (word_of_history ho.of_cons hu' hs).1
        rw [hends.2] at hword
        simpa [changes] using hword
      · exact hins q List.mem_cons_self _ _ d ha
    | _ => exact hrest hp

theorem changes_of_kept {g : Field} (hs : s.Tidy u)
    (h : (inOrder s.settled.toList).foldlM applyChange f = .ok g) :
    s.settled.definitionChanges.foldlM applyChange f = .ok g := by
  rwa [← foldlM_filter_isChange, hs.settled.filter_isChange] at h

/-- A primary key is made nullable by edits that end so only. -/
theorem keyNotNull_of_made (ho : h.Pairwise fun a b => a.order < b.order)
    (hu : ∀ q ∈ h, q.uid = u) (ht : ∀ g ∈ t.fields, g.KeyNotNull)
    (hins : ∀ q ∈ h, ∀ v i f, q.action = .insert v i f → f.KeyNotNull)
    (hends : endsNullable (h.map Planned.action) = false) (hs : ofHistory h = .ok s)
    (hm : Made t (inOrder s.settled.toList) f) : f.KeyNotNull := by
  have tidy := tidy_of_history hu hs
  cases hm with
  | kept hg _ hfold =>
    refine keyNotNull_of_changes tidy.settled.not_insertion_of_change ?_ (ht _ hg)
      (changes_of_kept tidy hfold)
    have hword := (word_of_history ho hu hs).1
    rw [hends, ← tidy.sameWord_settled.ends] at hword
    simpa [changes] using hword
  | brought hp ha =>
    have hmem := mem_of_mem_settled (mem_inOrder.1 hp)
    have hplace := (tidy.place hmem).1 (by rw [ha]; rfl)
    exact keyNotNull_of_history ho hu hins hends hs hplace ha

/-- A field of the table that lives through edits that end so may be null. -/
theorem nullable_of_lives (ho : h.Pairwise fun a b => a.order < b.order)
    (hu : ∀ q ∈ h, q.uid = u) (hl : Lives h) (hends : endsNullable (h.map Planned.action))
    (hs : ofHistory h = .ok s) (hm : Made t (inOrder s.settled.toList) f) :
    f.constraints.notNull = false := by
  have tidy := tidy_of_history hu hs
  by_cases hrem : ∃ q ∈ h, q.action.isRemoval
  · obtain ⟨q, rfl⟩ := removed_of_lives hl hs hrem
    obtain ⟨n, ha⟩ := tidy.removal q rfl
    exact absurd hm (not_made_of_removal (by rw [ha]; rfl))
  · cases hm with
    | kept hg _ hfold =>
      have hstays : ∀ q ∈ h, q.action.isInsertion = false ∧ q.action.isRemoval = false :=
        fun q hq => ⟨hl.not_insertion q hq, by simpa using fun e => hrem ⟨q, hq, e⟩⟩
      refine nullable_of_changes tidy.settled.not_insertion_of_change ?_
        (changes_of_kept tidy hfold)
      have hword := tidy.sameWord_settled.trans (sameWord_of_history ho hu hstays hs).2
      rw [← hword.ends] at hends
      exact hends
    | brought hp ha =>
      have hmem := mem_of_mem_settled (mem_inOrder.1 hp)
      have hno := tidy.isInsertion_eq_false (insertion_of_lives hl hs) hmem
      rw [ha] at hno
      cases hno

/-- And so may one that is inserted first. -/
theorem nullable_of_inserted (ho : (p :: h).Pairwise fun a b => a.order < b.order)
    (hu : ∀ q ∈ p :: h, q.uid = u) (hp : p.action.isInsertion) (hl : Lives h)
    (hends : endsNullable ((p :: h).map Planned.action)) (hr : ofHistory (p :: h) = .ok r)
    (hm : Made t (inOrder r.settled.toList) f) : f.constraints.notNull = false := by
  have tidyr := tidy_of_history hu hr
  obtain ⟨s, hs, ha⟩ := ofHistory_cons.1 hr
  have hu' : ∀ q ∈ h, q.uid = u := fun q hq => hu q (List.mem_cons_of_mem p hq)
  have tidy := tidy_of_history hu' hs
  cases ha with
  | cancel => exact absurd hm not_made_of_nil
  | @insert v i d g ha hnone hg =>
    -- a removal would have cancelled the insertion
    have hstays : ∀ q ∈ h, q.action.isInsertion = false ∧ q.action.isRemoval = false := by
      refine fun q hq => ⟨hl.not_insertion q hq, ?_⟩
      by_contra hrem
      obtain ⟨x, rfl⟩ := removed_of_lives hl hs ⟨q, hq, by simpa using hrem⟩
      cases hnone
    have hword := (sameWord_of_history ho.of_cons hu' hstays hs).2
    rw [List.map_cons, endsNullable_cons_of_quiet (by rw [ha]; rfl), ← hword.ends] at hends
    cases hm with
    | kept _ hreaches _ =>
      rw [settled_of_rename_eq_none rfl, inOrder_toList_of_insertion hnone] at hreaches
      · exact absurd hreaches (not_reaches_of_insertion rfl)
      · intro m hmove
        exact order_lt_of_history ho hs m (mem_toList.2 (.inr (.inr (.inr (.inr hmove)))))
    | brought hq ha' =>
      have hplace := (tidyr.place (mem_of_mem_settled (mem_inOrder.1 hq))).1 (by rw [ha']; rfl)
      cases hplace
      cases ha'
      exact nullable_of_changes tidy.not_insertion_of_change hends hg
  | rename ha | merge ha | change ha | overwritten ha | remove ha | move ha | superseded ha =>
    simp [ha, Action.isInsertion] at hp

end Record

/-- The field is inserted by the first edit, if at all, and removed by the last one, if at all. -/
def OneLife (l : List Action) : Prop :=
  (∀ a ∈ l.tail, a.isInsertion = false) ∧ ∀ a ∈ l.dropLast, a.isRemoval = false

instance (l : List Action) : Decidable (OneLife l) := inferInstanceAs (Decidable (_ ∧ _))

section OneLife

variable {u : Uid} {h : List Planned} {p : Planned} {s : Record} {t : Table} {f : Field}

theorem OneLife.tail {a : Action} {l : List Action} (h : OneLife (a :: l)) : OneLife l := by
  obtain ⟨hi, hr⟩ := h
  refine ⟨fun b hb => hi b (List.mem_of_mem_tail hb), fun b hb => hr b ?_⟩
  cases l with
  | nil => cases hb
  | cons c l => exact List.mem_cons_of_mem a hb

theorem OneLife.lives (ho : OneLife (h.map Planned.action))
    (hi : ∀ q ∈ h, q.action.isInsertion = false) : Lives h := by
  induction h with
  | nil => trivial
  | cons p h ih =>
    refine ⟨hi p List.mem_cons_self, fun hp => ?_,
      ih ho.tail fun q hq => hi q (List.mem_cons_of_mem p hq)⟩
    cases h with
    | nil => rfl
    | cons q h =>
      have hno := ho.2 p.action List.mem_cons_self
      rw [hp] at hno
      cases hno

theorem Record.nullable_of_made (ho : h.Pairwise fun a b => a.order < b.order)
    (hu : ∀ q ∈ h, q.uid = u) (hone : OneLife (h.map Planned.action))
    (hends : endsNullable (h.map Planned.action)) (hs : ofHistory h = .ok s)
    (hm : Made t (inOrder s.settled.toList) f) : f.constraints.notNull = false := by
  cases h with
  | nil => cases hends
  | cons p h =>
    have hrest : ∀ q ∈ h, q.action.isInsertion = false := fun q hq =>
      hone.1 q.action (List.mem_map_of_mem hq)
    cases hp : p.action.isInsertion with
    | true => exact nullable_of_inserted ho hu hp (hone.tail.lives hrest) hends hs hm
    | false =>
      refine nullable_of_lives ho hu (hone.lives fun q hq => ?_) hends hs hm
      rcases List.mem_cons.1 hq with rfl | hq
      · exact hp
      · exact hrest q hq

end OneLife

/-- Where no primary key of the table may be null, and none that is inserted, one of the resulting
table may be only if that is the last word of its edits; and if they tell of one life of a field,
exactly if so. -/
theorem Alteration.primary_key_nullable_iff {t : Table} {actions : List Action} {l : List Planned}
    {r : Reduction} {d : Draft} (hl : planAll actions = .ok l) (hr : Reduction.of l = .ok r)
    (hd : edited t r.ordered = .ok d) (ht : ∀ f ∈ t.fields, f.KeyNotNull)
    (hins : ∀ u i f, Action.insert u i f ∈ actions → f.KeyNotNull) :
    ((∀ u, endsNullable (actions.filter fun a => a.uid = u) = false) →
        ∀ f ∈ d.table.fields, f.KeyNotNull) ∧
      ∀ x ∈ d.rows, x.field.constraints.primaryKey →
        (x.field.constraints.notNull = false →
            ∃ u, x.uid = some u ∧ endsNullable (actions.filter fun a => a.uid = u)) ∧
          ∀ u, x.uid = some u → OneLife (actions.filter fun a => a.uid = u) →
            (x.field.constraints.notNull = false ↔
              endsNullable (actions.filter fun a => a.uid = u)) := by
  have hholds := holds_of_edited hl hr hd
  have hedits (u : Uid) := actions_editsOf (planAll_actions hl) u
  have hascending (u : Uid) : (editsOf u l).Pairwise fun a b => a.order < b.order :=
    (planAll_ascending hl).filter _
  have hown (u : Uid) : ∀ q ∈ editsOf u l, q.uid = u := fun q hq => (mem_editsOf.1 hq).2
  have hinserted (u : Uid) : ∀ q ∈ editsOf u l, ∀ v i f, q.action = .insert v i f →
      f.KeyNotNull := by
    intro q hq v i f ha
    refine hins v i f ?_
    rw [← planAll_actions hl, ← ha]
    exact List.mem_map_of_mem (mem_editsOf.1 hq).1
  have hkept : ∀ x ∈ d.rows, ¬x.field.KeyNotNull →
      ∃ u, x.uid = some u ∧ endsNullable (actions.filter fun a => a.uid = u) := by
    intro x hx hnull
    cases hu : x.uid with
    | none => exact absurd (ht _ (hholds.unbound x hx hu)) hnull
    | some u =>
      refine ⟨u, rfl, ?_⟩
      by_contra hends
      obtain ⟨s, hs, -, he⟩ := Reduction.record_of_planAll hl hr u
      have hmade := hholds.bound x hx u hu
      rw [he] at hmade
      rw [← hedits] at hends
      exact hnull (Record.keyNotNull_of_made (hascending u) (hown u) ht (hinserted u)
        (by simpa using hends) hs hmade)
  refine ⟨fun hno f hf => ?_, fun x hx hkey => ⟨fun hnull => hkept x hx ?_, fun u hu hone => ?_⟩⟩
  · obtain ⟨x, hx, rfl⟩ := List.mem_map.1 hf
    by_contra hnull
    obtain ⟨u, -, hends⟩ := hkept x hx hnull
    rw [hno u] at hends
    cases hends
  · intro h
    rw [h hkey] at hnull
    cases hnull
  · constructor
    · intro hnull
      obtain ⟨v, hv, hends⟩ := hkept x hx fun h => by
        rw [h hkey] at hnull
        cases hnull
      rw [hu] at hv
      cases hv
      exact hends
    · intro hends
      obtain ⟨s, hs, -, he⟩ := Reduction.record_of_planAll hl hr u
      have hmade := hholds.bound x hx u hu
      rw [he] at hmade
      rw [← hedits] at hends hone
      exact Record.nullable_of_made (hascending u) (hown u) hone hends hs hmade

section KeyedTable

def keyedTable : Table :=
  ⟨"t", [{ name := "id", type := .integer, constraints := { primaryKey := true, notNull := true } },
    { name := "code", type := .text }], []⟩

/-- One key takes `notNull` back, and another field takes it back before it becomes a key. -/
def nullings : List Action :=
  [.change ⟨0⟩ "id" "notNull" (.bool false), .change ⟨1⟩ "code" "notnull" (.bool false),
    .change ⟨0⟩ "id" "caption" (.text "Id"), .change ⟨1⟩ "code" "primaryKey" (.bool true)]

/-- The later word counts in both. -/
theorem Alteration.primary_key_nullable_iff_of_nullings : ∃ l r d, planAll nullings = .ok l ∧
    Reduction.of l = .ok r ∧ edited keyedTable r.ordered = .ok d ∧
    d.rows.map (fun x => (x.uid, x.field.constraints.primaryKey, x.field.constraints.notNull)) =
      [(some ⟨0⟩, true, false), (some ⟨1⟩, true, true)] ∧
    ∀ x ∈ d.rows, ∀ u, x.uid = some u →
      (x.field.constraints.notNull = false ↔
        endsNullable (nullings.filter fun a => a.uid = u)) := by
  obtain ⟨l, r, d, hl, hr, hd, hrows, hkey, hone⟩ : ∃ l r d, planAll nullings = .ok l ∧
      Reduction.of l = .ok r ∧ edited keyedTable r.ordered = .ok d ∧
      d.rows.map (fun x => (x.uid, x.field.constraints.primaryKey, x.field.constraints.notNull)) =
        [(some ⟨0⟩, true, false), (some ⟨1⟩, true, true)] ∧
      (∀ x ∈ d.rows, x.field.constraints.primaryKey) ∧
      ∀ x ∈ d.rows, ∀ u ∈ x.uid, OneLife (nullings.filter fun a => a.uid = u) :=
    ⟨_, _, _, rfl, rfl, rfl, by decide, by decide, by decide⟩
  refine ⟨l, r, d, hl, hr, hd, hrows, fun x hx u hu => ?_⟩
  obtain ⟨-, hwords⟩ := primary_key_nullable_iff hl hr hd (by decide) (by simp [nullings])
  exact (hwords x hx (hkey x hx)).2 u hu (hone x hx u hu)

/-- A primary key that may be null, though the only edit is of a key that may not. -/
theorem Alteration.primary_key_made_nullable : (∀ f ∈ keyedTable.fields, f.KeyNotNull) ∧
    ∃ l r d, planAll [.change ⟨0⟩ "id" "notNull" (.bool false)] = .ok l ∧
      Reduction.of l = .ok r ∧ edited keyedTable r.ordered = .ok d ∧
      ∃ f ∈ d.table.fields, f.constraints.primaryKey = true ∧ f.constraints.notNull = false :=
  ⟨by decide, _, _, _, rfl, rfl, rfl, by decide⟩

end KeyedTable

end TableAlteration
