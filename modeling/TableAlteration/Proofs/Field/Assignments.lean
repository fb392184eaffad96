import TableAlteration.Proofs.Field.Attributes
import TableAlteration.Proofs.Field.Overwriting

namespace TableAlteration

namespace Field

def assign (f : Field) (a : Assignment) : Except Refusal Field := f.set a.2 a.1

def assignAll (f : Field) (l : List Assignment) : Except Refusal Field := l.foldlM assign f

end Field

/-- Whether a field of the type takes the assignment, if any does. -/
def FieldType.supports (t : FieldType) : Assignment → Bool
  | (.autoIncrement, v) => t.allowsAutoIncrement || v.flag? ≠ some true
  | (.visibleDecimalPlaces, _) => t.hasDecimalPlaces
  | _ => true

/-- The last assignment of some property needs another type, and the type is assigned later. -/
def FieldType.Stalls (t : FieldType) (l : List Assignment) : Prop :=
  ∃ k a m, l = k ++ a :: m ∧ a.1 ∉ m.map Prod.fst ∧ .type ∈ m.map Prod.fst ∧
    t.supports a = false

theorem Value.flag?_of_asFlag {v : Value} {on : Bool} (h : v.asFlag = .ok on) :
    v.flag? = some on := by
  unfold asFlag at h
  split at h
  · rename_i hv
    cases h
    exact hv
  · cases h

theorem FieldType.stalls_cons {t : FieldType} {a : Assignment} {l : List Assignment} :
    t.Stalls (a :: l) ↔
      (a.1 ∉ l.map Prod.fst ∧ .type ∈ l.map Prod.fst ∧ t.supports a = false) ∨ t.Stalls l := by
  constructor
  · rintro ⟨k, b, m, hl, h⟩
    cases k with
    | nil =>
      cases hl
      exact .inl h
    | cons c k =>
      obtain ⟨rfl, rfl⟩ := List.cons.inj hl
      exact .inr ⟨k, b, m, rfl, h⟩
  · rintro (h | ⟨k, b, m, rfl, h⟩)
    · exact ⟨[], a, l, rfl, h⟩
    · exact ⟨a :: k, b, m, rfl, h⟩

theorem FieldType.type_of_stalls {t : FieldType} {l : List Assignment} (h : t.Stalls l) :
    .type ∈ l.map Prod.fst := by
  obtain ⟨k, a, m, rfl, -, hm, -⟩ := h
  rw [List.map_append, List.map_cons]
  exact List.mem_append_right _ (List.mem_cons_of_mem _ hm)

namespace Field

variable {f g f' g' x y : Field} {a : Assignment} {l : List Assignment} {p : Property}

theorem supports_of_assign (h : f.assign a = .ok g) : f.type.supports a := by
  obtain ⟨p, v⟩ := a
  cases p with
  | autoIncrement =>
    obtain ⟨on, hv, h⟩ := bind_eq_ok.1 h
    split at h
    · cases h
    · rename_i hon
      rw [FieldType.supports, Value.flag?_of_asFlag hv]
      cases on <;> simp_all
  | visibleDecimalPlaces => exact (alters_of_set h).1
  | _ => rfl

/-- An assignment that some field takes is taken by each field whose type supports it. -/
theorem assign_of_supports (h : f.assign a = .ok f') (hs : g.type.supports a) :
    ∃ g', g.assign a = .ok g' := by
  obtain ⟨p, v⟩ := a
  cases p with
  | defaultValue | lookup => exact ⟨_, rfl⟩
  | autoIncrement =>
    obtain ⟨on, hv, -⟩ := bind_eq_ok.1 h
    rw [FieldType.supports, Value.flag?_of_asFlag hv] at hs
    refine ⟨_, bind_eq_ok.2 ⟨on, hv, if_neg ?_⟩⟩
    cases on <;> simp_all
  | visibleDecimalPlaces =>
    have hf : f.type.hasDecimalPlaces := (alters_of_set h).1
    have hs : g.type.hasDecimalPlaces := hs
    simp only [assign, set, hf, if_true] at h
    obtain ⟨n, hv, -⟩ := bind_eq_ok.1 h
    refine ⟨{ g with decimalPlaces := n }, ?_⟩
    simp only [assign, set, hs, if_true]
    exact bind_eq_ok.2 ⟨n, hv, rfl⟩
  | _ =>
    obtain ⟨z, hv, -⟩ := bind_eq_ok.1 h
    exact ⟨_, bind_eq_ok.2 ⟨z, hv, rfl⟩⟩

theorem entangled_of_assign (h : f.assign a = .ok g) : g.entangled = f.entangled.after a := by
  obtain ⟨p, v⟩ := a
  cases p with
  | type =>
    obtain ⟨t, ht, h⟩ := bind_eq_ok.1 h
    cases h
    rw [Entangled.after, ht]
    rfl
  | primaryKey | notNull =>
    obtain ⟨on, hv, h⟩ := bind_eq_ok.1 h
    cases h
    rw [Entangled.after, Value.flag?_of_asFlag hv]
    rfl
  | autoIncrement =>
    obtain ⟨on, hv, h⟩ := bind_eq_ok.1 h
    rw [Entangled.after, Value.flag?_of_asFlag hv]
    split at h
    · cases h
    · cases h
      rfl
  | visibleDecimalPlaces =>
    have hf : f.type.hasDecimalPlaces := (alters_of_set h).1
    simp only [assign, set, hf, if_true] at h
    obtain ⟨n, hv, h⟩ := bind_eq_ok.1 h
    cases h
    rw [Entangled.after, hv]
    rfl
  | defaultValue | lookup =>
    cases h
    rfl
  | _ =>
    obtain ⟨z, -, h⟩ := bind_eq_ok.1 h
    cases h
    rfl

theorem entangled_of_assignAll (h : f.assignAll l = .ok g) :
    g.entangled = f.entangled.afterAll l := by
  induction l generalizing f with
  | nil =>
    cases h
    rfl
  | cons a l ih =>
    obtain ⟨f1, h1, h⟩ := foldlM_cons_eq_ok.1 h
    rw [ih h, entangled_of_assign h1]
    rfl

theorem type_of_assign (h : f.assign a = .ok g) (hne : a.1 ≠ .type) : g.type = f.type :=
  (congrArg Entangled.type (entangled_of_assign h)).trans (Attribute.typing.part_other _ a hne)

theorem type_eq_of_assign (hf : f.assign a = .ok f') (hg : g.assign a = .ok g')
    (h : .type ∈ (a :: l).map Prod.fst ∨ f.type = g.type) :
    .type ∈ l.map Prod.fst ∨ f'.type = g'.type := by
  by_cases ha : a.1 = .type
  · obtain ⟨p, v⟩ := a
    cases ha
    have e := Attribute.typing.part_owner f.entangled g.entangled v
    exact .inr ((congrArg Entangled.type (entangled_of_assign hf)).trans
      (e.trans (congrArg Entangled.type (entangled_of_assign hg)).symm))
  · rcases h with h | h
    · exact .inl ((List.mem_cons.1 h).resolve_left (Ne.symm ha))
    · rw [type_of_assign hf ha, type_of_assign hg ha, h]
      exact .inr rfl

/-- The last assignments succeed unless one of them needs a type that comes later. -/
theorem lastAssignments_ok_iff (h : .type ∈ l.map Prod.fst ∨ x.type = y.type)
    (hx : x.assignAll l = .ok g) :
    (∃ g', y.assignAll (lastAssignments l) = .ok g') ↔ ¬y.type.Stalls l := by
  induction l generalizing x y with
  | nil =>
    refine iff_of_true ⟨y, rfl⟩ fun hs => ?_
    exact List.not_mem_nil (FieldType.type_of_stalls hs)
  | cons a l ih =>
    obtain ⟨x1, hx1, hx⟩ := foldlM_cons_eq_ok.1 hx
    rw [FieldType.stalls_cons]
    by_cases ha : a.1 ∈ l.map Prod.fst
    · have hnext : .type ∈ l.map Prod.fst ∨ x1.type = y.type := by
        by_cases ht : .type ∈ l.map Prod.fst
        · exact .inl ht
        · have hne : a.1 ≠ .type := fun e => ht (e ▸ ha)
          refine .inr ((type_of_assign hx1 hne).trans (h.resolve_left fun hmem => ?_))
          exact (List.mem_cons.1 hmem).elim (fun e => hne e.symm) ht
      rw [lastAssignments_of_mem ha, ih hnext hx, or_iff_right fun hs => hs.1 ha]
    · rw [lastAssignments_of_not_mem ha]
      cases hs : y.type.supports a with
      | true =>
        obtain ⟨y1, hy1⟩ := assign_of_supports hx1 hs
        have hstep : (∃ g', y.assignAll (a :: lastAssignments l) = .ok g') ↔
            ∃ g', y1.assignAll (lastAssignments l) = .ok g' := by
          refine exists_congr fun g' => ⟨fun hg => ?_, fun hg => ?_⟩
          · obtain ⟨y2, hy2, hg⟩ := foldlM_cons_eq_ok.1 hg
            cases hy1.symm.trans hy2
            exact hg
          · exact foldlM_cons_eq_ok.2 ⟨y1, hy1, hg⟩
        have hstalls : y1.type.Stalls l ↔ y.type.Stalls l := by
          by_cases ht : .type ∈ l.map Prod.fst
          · rw [type_of_assign hy1 fun e => ha (e ▸ ht)]
          · exact iff_of_false (mt FieldType.type_of_stalls ht) (mt FieldType.type_of_stalls ht)
        rw [hstep, ih (type_eq_of_assign hx1 hy1 h) hx, hstalls]
        simp
      | false =>
        have hsupports := supports_of_assign hx1
        have hne : a.1 ≠ .type := by
          intro e
          obtain ⟨p, v⟩ := a
          cases e
          cases hs
        have ht : .type ∈ l.map Prod.fst := by
          refine (List.mem_cons.1 (h.resolve_right fun e => ?_)).resolve_left (Ne.symm hne)
          rw [e, hs] at hsupports
          cases hsupports
        refine iff_of_false (fun ⟨g', hg⟩ => ?_) fun hno => hno (.inl ⟨ha, ht, rfl⟩)
        obtain ⟨y1, hy1, -⟩ := foldlM_cons_eq_ok.1 hg
        have hy := supports_of_assign hy1
        rw [hs] at hy
        cases hy

/-- Fields that differ in a property only are led to the same one where it is assigned. -/
theorem assignAll_of_forget_eq (hp : p.standsAlone) (e : f.forget p = g.forget p)
    (hmem : p ∈ l.map Prod.fst) (h : f.assignAll l = .ok f') : g.assignAll l = .ok f' := by
  induction l generalizing f g with
  | nil => cases hmem
  | cons a l ih =>
    obtain ⟨f1, h1, h⟩ := foldlM_cons_eq_ok.1 h
    rcases List.mem_cons.1 hmem with rfl | hmem
    · refine foldlM_cons_eq_ok.2 ⟨f1, ?_, h⟩
      rw [assign, ← set_eq_of_forget_eq hp e]
      exact h1
    · obtain ⟨g1, hg, e1⟩ := set_of_forget_eq hp e h1
      exact foldlM_cons_eq_ok.2 ⟨g1, hg, ih e1 hmem h⟩

/-- Without `type` and `primaryKey` the last assignments are enough. -/
theorem assignAll_lastAssignments (hl : ∀ a ∈ l, a.1.standsAlone) (h : f.assignAll l = .ok g) :
    f.assignAll (lastAssignments l) = .ok g := by
  induction l generalizing f with
  | nil => exact h
  | cons a l ih =>
    obtain ⟨f1, h1, h⟩ := foldlM_cons_eq_ok.1 h
    have ih := ih (fun b hb => hl b (List.mem_cons_of_mem a hb)) h
    by_cases ha : a.1 ∈ l.map Prod.fst
    · have hone := hl a List.mem_cons_self
      rw [lastAssignments_of_mem ha]
      exact assignAll_of_forget_eq hone (forget_of_alters hone (alters_of_set h1))
        (mem_properties_lastAssignments.2 ha) ih
    · rw [lastAssignments_of_not_mem ha]
      exact foldlM_cons_eq_ok.2 ⟨f1, h1, ih⟩

end Field

/-- The properties whose attributes are entangled. -/
def Property.isEntangled : Property → Bool
  | .type | .primaryKey | .notNull | .autoIncrement | .visibleDecimalPlaces => true
  | _ => false

theorem Property.standsAlone_of_not_entangled {p : Property} (h : p.isEntangled = false) :
    p.standsAlone := by
  cases p <;> first | rfl | cases h

namespace Field

variable {f g g' : Field} {l : List Assignment} {p : Property} {v : Value}

/-- All fields that differ in entangled attributes only have the same `f.untangled`. -/
def untangled (f : Field) : Field :=
  { f with
    type := .byte
    constraints :=
      { f.constraints with primaryKey := false, notNull := false, autoIncrement := false }
    decimalPlaces := none }

theorem eq_of_untangled (h : f.untangled = g.untangled) (e : f.entangled = g.entangled) :
    f = g := by
  obtain ⟨fname, ftype, fcaption, fdescription, flength, fprecision, funsigned,
    ⟨fkey, funique, fnull, fempty, fauto, findexed⟩, fdefault, fwidth, fplaces, fextended⟩ := f
  obtain ⟨gname, gtype, gcaption, gdescription, glength, gprecision, gunsigned,
    ⟨gkey, gunique, gnull, gempty, gauto, gindexed⟩, gdefault, gwidth, gplaces, gextended⟩ := g
  simp only [untangled, entangled, Field.mk.injEq, Constraints.mk.injEq, Entangled.mk.injEq]
    at h e ⊢
  tauto

theorem untangled_of_set (hp : p.isEntangled) (h : f.set v p = .ok g) :
    g.untangled = f.untangled := by
  have h := alters_of_set h
  cases p with
  | type | primaryKey | notNull =>
    obtain ⟨z, rfl⟩ := h
    rfl
  | autoIncrement =>
    obtain ⟨z, -, rfl⟩ := h
    rfl
  | visibleDecimalPlaces =>
    obtain ⟨-, z, rfl⟩ := h
    rfl
  | _ => cases hp

theorem set_untangled (hp : p.isEntangled = false) (h : f.set v p = .ok g) :
    f.untangled.set v p = .ok g.untangled := by
  cases p with
  | type | primaryKey | notNull | autoIncrement | visibleDecimalPlaces => cases hp
  | defaultValue | lookup =>
    cases h
    rfl
  | _ =>
    obtain ⟨z, hv, h⟩ := bind_eq_ok.1 h
    cases h
    exact bind_eq_ok.2 ⟨z, hv, rfl⟩

/-- The rest of a field is what the other assignments make of it. -/
theorem assignAll_untangled (h : f.assignAll l = .ok g) :
    f.untangled.assignAll (l.filter fun a => !a.1.isEntangled) = .ok g.untangled := by
  induction l generalizing f with
  | nil =>
    cases h
    rfl
  | cons a l ih =>
    obtain ⟨f1, h1, h⟩ := foldlM_cons_eq_ok.1 h
    cases hp : a.1.isEntangled with
    | true =>
      rw [List.filter_cons, if_neg (by simp [hp]), ← untangled_of_set hp h1]
      exact ih h
    | false =>
      rw [List.filter_cons, if_pos (by simp [hp])]
      exact foldlM_cons_eq_ok.2 ⟨_, set_untangled hp h1, ih h⟩

theorem untangled_eq (h : f.assignAll l = .ok g) (h' : f.assignAll (lastAssignments l) = .ok g') :
    g'.untangled = g.untangled := by
  have hall := assignAll_untangled h
  have hlast := assignAll_untangled h'
  rw [filter_lastAssignments fun p => !p.isEntangled, assignAll_lastAssignments _ hall] at hlast
  · exact (Except.ok.inj hlast).symm
  · intro a ha
    exact Property.standsAlone_of_not_entangled (by simpa using (List.mem_filter.1 ha).2)

/-- No type comes too late, and no reset is missed, if only the last assignments are made. -/
structure KeepsEffects (f : Field) (l : List Assignment) : Prop where
  typed : ¬f.type.Stalls l
  nullability : ¬Attribute.nullability.Missed f.entangled l
  counting : ¬Attribute.counting.Missed f.entangled l
  places : ¬Attribute.places.Missed f.entangled l

/-- When the last assignment of each property is enough. -/
theorem assignAll_lastAssignments_iff (h : f.assignAll l = .ok g) :
    f.assignAll (lastAssignments l) = .ok g ↔ f.KeepsEffects l := by
  have hok := lastAssignments_ok_iff (.inr rfl) h
  have hpart : ∀ {α : Type} {e : Attribute α} {g' : Field},
      f.assignAll (lastAssignments l) = .ok g' →
        (e.part g'.entangled = e.part g.entangled ↔ ¬e.Missed f.entangled l) := by
    intro α e g' h'
    rw [entangled_of_assignAll h', entangled_of_assignAll h]
    exact Attribute.part_eq_iff (.inr rfl)
  constructor
  · intro h'
    exact ⟨hok.1 ⟨g, h'⟩, (hpart h').1 rfl, (hpart h').1 rfl, (hpart h').1 rfl⟩
  · intro hk
    obtain ⟨g', h'⟩ := hok.2 hk.typed
    have htype : g'.entangled.type = g.entangled.type :=
      (hpart (e := Attribute.typing) h').2 fun ⟨_, _, _, _, _, hno, _⟩ => by cases hno
    have hkey : g'.entangled.primaryKey = g.entangled.primaryKey :=
      (hpart (e := Attribute.keyness) h').2 fun ⟨_, _, _, _, _, hno, _⟩ => by cases hno
    have hnull : g'.entangled.notNull = g.entangled.notNull := (hpart h').2 hk.nullability
    have hcount : g'.entangled.autoIncrement = g.entangled.autoIncrement :=
      (hpart h').2 hk.counting
    have hplaces : g'.entangled.decimalPlaces = g.entangled.decimalPlaces :=
      (hpart h').2 hk.places
    have hentangled := Entangled.ext htype hkey hnull hcount hplaces
    rw [h', eq_of_untangled (untangled_eq h h') hentangled]

/-- Each type is there in time if it is assigned only once. -/
theorem not_stalls_of_once (h : f.assignAll l = .ok g)
    (hone : (l.map Prod.fst).count .type ≤ 1) : ¬f.type.Stalls l := by
  rintro ⟨k, a, m, rfl, -, hm, hno⟩
  obtain ⟨x, hk, h⟩ := foldlM_append_eq_ok.1 h
  obtain ⟨y, ha, -⟩ := foldlM_cons_eq_ok.1 h
  have htype : x.type = f.type := by
    have hpos := List.count_pos_iff.2 hm
    rw [List.map_append, List.map_cons, List.count_append, List.count_cons] at hone
    have hnone : .type ∉ k.map Prod.fst := fun hmem => by
      have := List.count_pos_iff.2 hmem
      omega
    have hpart := Attribute.part_of_not_owned (e := Attribute.typing) (x := f.entangled) hnone
    have hany : k.any Attribute.typing.resets = false :=
      List.any_eq_false.2 fun _ _ => Bool.false_ne_true
    rw [hany, if_neg Bool.false_ne_true] at hpart
    exact (congrArg Entangled.type (entangled_of_assignAll hk)).trans hpart
  have hsupports := supports_of_assign ha
  rw [htype, hno] at hsupports
  cases hsupports

/-- What reaches beyond its own attribute may be assigned once. -/
theorem keepsEffects_of_once (h : f.assignAll l = .ok g)
    (htype : (l.map Prod.fst).count .type ≤ 1)
    (hkey : (l.map Prod.fst).count .primaryKey ≤ 1) : f.KeepsEffects l := by
  have hmissed : ∀ {α : Type} {e : Attribute α},
      (∀ a, e.resets a → a.1 = .type ∨ a.1 = .primaryKey) → ¬e.Missed f.entangled l := by
    intro α e he hm
    obtain ⟨a, hr, htwice⟩ := Attribute.twice_of_missed hm
    rcases he a hr with e | e
    all_goals
      rw [e] at htwice
      omega
  refine ⟨not_stalls_of_once h htype, hmissed fun a ha => ?_, hmissed fun a ha => ?_,
    hmissed fun a ha => ?_⟩
  · exact .inr (of_decide_eq_true (Bool.and_eq_true_iff.1 ha).1)
  · exact .inl (of_decide_eq_true (Bool.and_eq_true_iff.1 ha).1)
  · exact .inl (of_decide_eq_true (Bool.and_eq_true_iff.1 ha).1)

end Field

end TableAlteration
