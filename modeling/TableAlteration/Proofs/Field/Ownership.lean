import TableAlteration.Proofs.Field.Assignments
import TableAlteration.Proofs.Field.Updates

namespace TableAlteration

namespace Field

/-- One of the things that are known of a field. The look-up properties have a part each. -/
inductive Part where
  | name | type | caption | description | maxLength | precision | unsigned | primaryKey | unique
  | notNull | notEmpty | autoIncrement | indexed | default | defaultWidth | decimalPlaces
  | extended (key : String)
  deriving DecidableEq, Repr

def Part.Data : Part → Type
  | name => String
  | type => FieldType
  | caption | description => Option String
  | maxLength | precision | defaultWidth => Option UInt32
  | unsigned | primaryKey | unique | notNull | notEmpty | autoIncrement | indexed => Bool
  | default | extended _ => Option Value
  | decimalPlaces => Option Int32

def part (f : Field) : (a : Part) → a.Data
  | .name => f.name
  | .type => f.type
  | .caption => f.caption
  | .description => f.description
  | .maxLength => f.maxLength
  | .precision => f.precision
  | .unsigned => f.unsigned
  | .primaryKey => f.constraints.primaryKey
  | .unique => f.constraints.unique
  | .notNull => f.constraints.notNull
  | .notEmpty => f.constraints.notEmpty
  | .autoIncrement => f.constraints.autoIncrement
  | .indexed => f.constraints.indexed
  | .default => f.default
  | .defaultWidth => f.defaultWidth
  | .decimalPlaces => f.decimalPlaces
  | .extended key => f.extended.get? key

/-- Nothing else is known of a field. -/
theorem ext_parts {f g : Field} (h : ∀ a, f.part a = g.part a) : f = g := by
  obtain ⟨fname, ftype, fcaption, fdescription, flength, fprecision, funsigned,
    ⟨fkey, funique, fnull, fempty, fauto, findexed⟩, fdefault, fwidth, fplaces, fextended⟩ := f
  obtain ⟨gname, gtype, gcaption, gdescription, glength, gprecision, gunsigned,
    ⟨gkey, gunique, gnull, gempty, gauto, gindexed⟩, gdefault, gwidth, gplaces, gextended⟩ := g
  obtain rfl : fname = gname := h .name
  obtain rfl : ftype = gtype := h .type
  obtain rfl : fcaption = gcaption := h .caption
  obtain rfl : fdescription = gdescription := h .description
  obtain rfl : flength = glength := h .maxLength
  obtain rfl : fprecision = gprecision := h .precision
  obtain rfl : funsigned = gunsigned := h .unsigned
  obtain rfl : fkey = gkey := h .primaryKey
  obtain rfl : funique = gunique := h .unique
  obtain rfl : fnull = gnull := h .notNull
  obtain rfl : fempty = gempty := h .notEmpty
  obtain rfl : fauto = gauto := h .autoIncrement
  obtain rfl : findexed = gindexed := h .indexed
  obtain rfl : fdefault = gdefault := h .default
  obtain rfl : fwidth = gwidth := h .defaultWidth
  obtain rfl : fplaces = gplaces := h .decimalPlaces
  obtain rfl : fextended = gextended := Dict.ext fun key => h (.extended key)
  rfl

end Field

namespace Property

/-- The part that the property names. -/
def part : Property → Field.Part
  | name => .name
  | type => .type
  | caption => .caption
  | description => .description
  | unsigned => .unsigned
  | maxLength => .maxLength
  | precision => .precision
  | defaultValue => .default
  | defaultWidth => .defaultWidth
  | primaryKey => .primaryKey
  | unique => .unique
  | notNull => .notNull
  | allowEmpty => .notEmpty
  | autoIncrement => .autoIncrement
  | indexed => .indexed
  | visibleDecimalPlaces => .decimalPlaces
  | lookup l => .extended l.key

/-- The other parts that setting the property may reach. -/
def reach : Property → List Field.Part
  | type => [.autoIncrement, .decimalPlaces]
  | primaryKey => [.notNull]
  | _ => []

theorem part_injective {p q : Property} (h : p.part = q.part) : p = q := by
  cases p with
  | lookup l =>
    cases q with
    | lookup m => exact key_injective (Field.Part.extended.inj h)
    | _ => cases h
  | _ =>
    cases q <;> cases h
    rfl

theorem standsAlone_of_names {s : String} {p : Property} (hs : ofName? s = some p)
    (h : ∀ n ∈ ["type", "primaryKey"], ¬Text.sameName s n) : p.standsAlone := by
  have hname : Text.sameName s p.written := Text.sameName_iff.2 (fold_written hs).symm
  cases p with
  | type => exact absurd hname (h "type" (by decide))
  | primaryKey => exact absurd hname (h "primaryKey" (by decide))
  | _ => rfl

theorem reach_eq_nil {p : Property} (h : p.standsAlone) : p.reach = [] := by
  cases p with
  | type | primaryKey => cases h
  | _ => rfl

end Property

namespace Field

variable {f g f' g' : Field} {p q : Property} {v w : Value} {a : Part}

theorem part_of_set (h : f.set v p = .ok g) (ha : a ≠ p.part) (hr : a ∉ p.reach) :
    g.part a = f.part a := by
  have h := alters_of_set h
  cases p with
  | lookup l =>
    obtain ⟨e, he, rfl⟩ := h
    cases a with
    | extended key =>
      have hkey : key ≠ l.key := fun e => ha (congrArg Part.extended e)
      have hget := congrArg (·.get? key) he
      simp only [Dict.get?_erase, if_neg hkey] at hget
      exact hget
    | _ => rfl
  | autoIncrement =>
    obtain ⟨x, -, rfl⟩ := h
    cases a with
    | autoIncrement => exact absurd rfl ha
    | _ => rfl
  | visibleDecimalPlaces =>
    obtain ⟨-, x, rfl⟩ := h
    cases a with
    | decimalPlaces => exact absurd rfl ha
    | _ => rfl
  | type =>
    obtain ⟨x, rfl⟩ := h
    cases a with
    | type => exact absurd rfl ha
    | autoIncrement | decimalPlaces => simp [Property.reach] at hr
    | _ => rfl
  | primaryKey =>
    obtain ⟨x, rfl⟩ := h
    cases a with
    | primaryKey => exact absurd rfl ha
    | notNull => simp [Property.reach] at hr
    | _ => rfl
  | _ =>
    -- every other property assigns its own part and nothing else
    obtain ⟨x, rfl⟩ := h
    cases a <;> first | rfl | exact absurd rfl ha

/-- What a property owns depends on the value alone. -/
theorem part_of_value (h : f.set v p = .ok f') (h' : g.set v p = .ok g') :
    f'.part p.part = g'.part p.part := by
  cases p with
  | defaultValue =>
    cases h
    cases h'
    rfl
  | lookup l =>
    cases h
    cases h'
    change Dict.get? _ _ = Dict.get? _ _
    split
    · rw [Dict.get?_erase, Dict.get?_erase, if_pos rfl, if_pos rfl]
    · rw [Dict.get?_insert_self, Dict.get?_insert_self]
  | autoIncrement =>
    obtain ⟨x, hx, h⟩ := bind_eq_ok.1 h
    obtain ⟨y, hy, h'⟩ := bind_eq_ok.1 h'
    cases hx.symm.trans hy
    split at h
    · cases h
    · split at h'
      · cases h'
      · cases h
        cases h'
        rfl
  | visibleDecimalPlaces =>
    have hf : f.type.hasDecimalPlaces := (alters_of_set h).1
    have hg : g.type.hasDecimalPlaces := (alters_of_set h').1
    simp only [set, hf, hg, if_true] at h h'
    obtain ⟨x, hx, h⟩ := bind_eq_ok.1 h
    obtain ⟨y, hy, h'⟩ := bind_eq_ok.1 h'
    cases hx.symm.trans hy
    cases h
    cases h'
    rfl
  | _ =>
    obtain ⟨x, hx, h⟩ := bind_eq_ok.1 h
    obtain ⟨y, hy, h'⟩ := bind_eq_ok.1 h'
    cases hx.symm.trans hy
    cases h
    cases h'
    rfl

/-- A change of a property leaves the parts alone that it does not own. A new type only gives up what
it does not support, and a primary key only forbids null. -/
structure OwnChange (p : Property) (f g : Field) : Prop where
  untouched : ∀ a, a ≠ p.part → a ∉ p.reach → g.part a = f.part a
  counting : p = .type → g.constraints.autoIncrement → f.constraints.autoIncrement
  places : p = .type → g.decimalPlaces = f.decimalPlaces ∨ g.decimalPlaces = none
  nullability : p = .primaryKey → f.constraints.notNull → g.constraints.notNull

theorem ownChange_of_set (h : f.set v p = .ok g) : OwnChange p f g := by
  refine ⟨fun a => part_of_set h, ?_, ?_, ?_⟩
  · rintro rfl hg
    obtain ⟨t, rfl⟩ := alters_of_set h
    exact (Bool.and_eq_true_iff.1 hg).1
  · rintro rfl
    obtain ⟨t, rfl⟩ := alters_of_set h
    unfold withType
    cases t.hasDecimalPlaces with
    | true => exact .inl rfl
    | false => exact .inr rfl
  · rintro rfl hf
    obtain ⟨on, rfl⟩ := alters_of_set h
    exact Bool.or_eq_true_iff.2 (.inr hf)

theorem part_of_standsAlone (hp : p.standsAlone) (h : f.set v p = .ok g) (ha : a ≠ p.part) :
    g.part a = f.part a := by
  refine part_of_set h ha ?_
  rw [Property.reach_eq_nil hp]
  exact List.not_mem_nil

/-- Such a change neither enables another one nor stands in its way. -/
theorem set_ok_iff (hp : p.standsAlone) (hf : f.set v p = .ok f') :
    (∃ g, f'.set w q = .ok g) ↔ ∃ g, f.set w q = .ok g := by
  have hne : p ≠ .type := by
    rintro rfl
    cases hp
  have htype : f'.type = f.type := type_of_assign (a := (p, v)) hf hne
  constructor
  · rintro ⟨g, hg⟩
    have hsupports : f'.type.supports (q, w) := supports_of_assign hg
    rw [htype] at hsupports
    exact assign_of_supports (a := (q, w)) hg hsupports
  · rintro ⟨g, hg⟩
    have hsupports : f.type.supports (q, w) := supports_of_assign hg
    rw [← htype] at hsupports
    exact assign_of_supports (a := (q, w)) hg hsupports

/-- Two properties that own their parts alone can be set in any order. -/
theorem set_comm (hp : p.standsAlone) (hq : q.standsAlone) (hpq : p ≠ q)
    (hf : f.set v p = .ok f') (hg : f.set w q = .ok g) :
    ∃ z, f'.set w q = .ok z ∧ g.set v p = .ok z := by
  obtain ⟨x, hx⟩ := (set_ok_iff hp hf).2 ⟨g, hg⟩
  obtain ⟨y, hy⟩ := (set_ok_iff hq hg).2 ⟨f', hf⟩
  have hparts : p.part ≠ q.part := fun e => hpq (Property.part_injective e)
  suffices heq : x = y by
    subst heq
    exact ⟨x, hx, hy⟩
  refine ext_parts fun a => ?_
  by_cases hap : a = p.part
  · subst hap
    calc x.part p.part = f'.part p.part := part_of_standsAlone hq hx hparts
      _ = y.part p.part := part_of_value hf hy
  · by_cases haq : a = q.part
    · subst haq
      calc x.part q.part = g.part q.part := part_of_value hx hg
        _ = y.part q.part := (part_of_standsAlone hp hy hap).symm
    · calc x.part a = f'.part a := part_of_standsAlone hq hx haq
        _ = f.part a := part_of_standsAlone hp hf hap
        _ = g.part a := (part_of_standsAlone hq hg haq).symm
        _ = y.part a := (part_of_standsAlone hp hy hap).symm

theorem run_bind_eq_ok {m n : EStateM AlterError Field Unit} :
    (m >>= fun _ => n).run f = .ok () g ↔ ∃ f', m.run f = .ok () f' ∧ n.run f' = .ok () g := by
  rw [EStateM.run_bind]
  cases m.run f <;> simp

/-- In whatever order the two changes succeed one after the other, they lead to the same field. -/
def Commute (m n : EStateM AlterError Field Unit) : Prop :=
  ∀ f g, (m >>= fun _ => n).run f = .ok () g ↔ (n >>= fun _ => m).run f = .ok () g

section Names

variable {s t : String}

theorem updateNamed_swap (hst : ¬Text.sameName s t)
    (hn : ∀ n ∈ ["type", "primaryKey"], ¬Text.sameName s n ∧ ¬Text.sameName t n)
    (h : (updateNamed s v >>= fun _ => updateNamed t w).run f = .ok () g) :
    (updateNamed t w >>= fun _ => updateNamed s v).run f = .ok () g := by
  obtain ⟨x, hx, hg⟩ := run_bind_eq_ok.1 h
  obtain ⟨p, hs, hx⟩ := updateNamed_eq_ok.1 hx
  obtain ⟨q, ht, hg⟩ := updateNamed_eq_ok.1 hg
  have hp := Property.standsAlone_of_names hs fun n hmem => (hn n hmem).1
  have hq := Property.standsAlone_of_names ht fun n hmem => (hn n hmem).2
  obtain ⟨y, hy⟩ := (set_ok_iff hp hx).1 ⟨g, hg⟩
  have hpq : p ≠ q := by
    rintro rfl
    exact hst (Text.sameName_iff.2 ((Property.fold_written hs).symm.trans
      (Property.fold_written ht)))
  obtain ⟨z, hz, hyz⟩ := set_comm hp hq hpq hx hy
  cases hg.symm.trans hz
  exact run_bind_eq_ok.2 ⟨y, updateNamed_eq_ok.2 ⟨q, ht, hy⟩, updateNamed_eq_ok.2 ⟨p, hs, hyz⟩⟩

/-- A change that is refused leaves the field as it is, and one that succeeds touches only what its
property owns. Changes of two properties that are neither `type` nor `primaryKey` commute, and where
each of them succeeds, so do both. -/
theorem update_owns (s t : String) (v w : Value) :
    (∀ f g e, (updateNamed s v).run f = .error e g → g = f) ∧
    (∀ f g, (updateNamed s v).run f = .ok () g →
      ∃ p, Property.ofName? s = some p ∧ OwnChange p f g) ∧
    (¬Text.sameName s t →
      (∀ n ∈ ["type", "primaryKey"], ¬Text.sameName s n ∧ ¬Text.sameName t n) →
        Commute (updateNamed s v) (updateNamed t w) ∧
        ∀ f x y, (updateNamed s v).run f = .ok () x → (updateNamed t w).run f = .ok () y →
          ∃ g, (updateNamed s v >>= fun _ => updateNamed t w).run f = .ok () g) := by
  refine ⟨fun f g e h => ?_, fun f g h => ?_, fun hst hn => ⟨fun f g => ?_, ?_⟩⟩
  · rw [run_updateNamed] at h
    split at h
    · cases h
      rfl
    · split at h
      · cases h
      · cases h
        rfl
  · obtain ⟨p, hs, hset⟩ := updateNamed_eq_ok.1 h
    exact ⟨p, hs, ownChange_of_set hset⟩
  · constructor
    · exact updateNamed_swap hst hn
    · refine updateNamed_swap (fun h => hst ?_) fun n hmem => (hn n hmem).symm
      rwa [Text.sameName_comm]
  · intro f x y hx hy
    obtain ⟨p, hs, hx'⟩ := updateNamed_eq_ok.1 hx
    obtain ⟨q, ht, hy'⟩ := updateNamed_eq_ok.1 hy
    have hp := Property.standsAlone_of_names hs fun n hmem => (hn n hmem).1
    obtain ⟨g, hg⟩ := (set_ok_iff hp hx').2 ⟨y, hy'⟩
    exact ⟨g, run_bind_eq_ok.2 ⟨x, hx, updateNamed_eq_ok.2 ⟨q, ht, hg⟩⟩⟩

theorem update_owns_of_caption :
    Commute (updateNamed "caption" (.text "Number")) (updateNamed "ROWSOURCE" (.text "cities")) ∧
    ∃ p g, (updateNamed "ROWSOURCE" (.text "cities")).run { name := "n", type := .integer } =
        .ok () g ∧
      p.key = "rowsource" ∧ OwnChange p { name := "n", type := .integer } g := by
  obtain ⟨hcomm, -⟩ := (update_owns "caption" "ROWSOURCE" (.text "Number") (.text "cities")).2.2
    (by decide) (by decide)
  obtain ⟨g, hg⟩ : ∃ g, (updateNamed "ROWSOURCE" (.text "cities")).run
      { name := "n", type := .integer } = .ok () g :=
    ⟨_, updateNamed_eq_ok.2 ⟨.lookup .rowSource, by decide, rfl⟩⟩
  obtain ⟨p, hp, hown⟩ := (update_owns "ROWSOURCE" "caption" (.text "cities") .null).2.1 _ g hg
  exact ⟨hcomm, p, g, hg, (Property.ofName?_eq_some_iff.1 hp).trans (by decide), hown⟩

end Names

end Field

end TableAlteration
