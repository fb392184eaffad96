import TableAlteration.Proofs.Edit.Untouched
import TableAlteration.Proofs.Run.Commit

namespace TableAlteration

/-- What stays of a definition as long as its table is not rebuilt. -/
def Field.fixed (f : Field) : Field :=
  { f with
    caption := none, description := none, default := none, defaultWidth := none,
    decimalPlaces := none, extended := ∅ }

/-- The column of a field when the table is created. -/
def Table.column (t : Table) (f : Field) : Sql.Column := .of (t.primaryKey.length ≤ 1) f

example (t : Table) : Sql.columns t = t.fields.map t.column := rfl

/-- Whether the edit is one that a rebuild is needed for. -/
def Action.isPhysical (a : Action) : Bool :=
  match a.requirements with
  | .ok r => r.physical
  | .error _ => false

namespace Field

variable {f g : Field} {p : Property}

theorem fixed_of_alters (h : p.requirements.physical = false) (hg : Alters p f g) :
    g.fixed = f.fixed ∧ (p ≠ .defaultValue → g.default = f.default) ∧
      (p ≠ .visibleDecimalPlaces → g.decimalPlaces = f.decimalPlaces) := by
  cases p with
  | caption | description | defaultWidth =>
    obtain ⟨x, rfl⟩ := hg
    exact ⟨rfl, fun _ => rfl, fun _ => rfl⟩
  | defaultValue =>
    obtain ⟨v, rfl⟩ := hg
    exact ⟨rfl, fun hne => absurd rfl hne, fun _ => rfl⟩
  | visibleDecimalPlaces =>
    obtain ⟨-, n, rfl⟩ := hg
    exact ⟨rfl, fun _ => rfl, fun hne => absurd rfl hne⟩
  | lookup l =>
    obtain ⟨e, -, rfl⟩ := hg
    exact ⟨rfl, fun _ => rfl, fun _ => rfl⟩
  | _ => cases h

theorem name_of_fixed (h : g.fixed = f.fixed) : g.name = f.name := by
  have h' := congrArg Field.name h
  exact h'

/-- Only the type and the default of a column depend on what is not fixed. -/
theorem column_of_fixed (h : g.fixed = f.fixed) (inline : Bool) :
    Sql.Column.of inline g = { Sql.Column.of inline f with
      type := .of g
      default := g.default.filter fun v => !v.isNull } := by
  unfold fixed at h
  obtain ⟨hname, -, -, -, -, -, -, hconstraints, -⟩ := Field.mk.inj h
  rw [Sql.Column.of, Sql.Column.of, hname, hconstraints]

/-- And the type depends on the decimal places alone, of floating-point fields with a precision. -/
theorem columnType_of_fixed (h : g.fixed = f.fixed) (hplaces : f.type.isFloating = false ∨
      f.precision = none ∨ g.decimalPlaces = f.decimalPlaces) :
    Sql.ColumnType.of g = Sql.ColumnType.of f := by
  unfold fixed at h
  obtain ⟨-, htype, -, -, hlength, hprecision, hunsigned, -⟩ := Field.mk.inj h
  rw [Sql.ColumnType.of, Sql.ColumnType.of, htype, hlength, hprecision, hunsigned]
  rcases hplaces with hfloating | hnone | hplaces
  · cases hf : f.type with
    | float | double =>
      rw [hf] at hfloating
      cases hfloating
    | _ => rfl
  · rw [hnone]
  · rw [hplaces]

end Field

namespace Record

/-- An edit without need of a rebuild keeps what is fixed, and all but the property it sets. -/
theorem fixed_of_applyChange {f g : Field} {c : Planned} (hc : c.action.isPhysical = false)
    (h : applyChange f c = .ok g) :
    g.fixed = f.fixed ∧ (c.action.touches .defaultValue = false → g.default = f.default) ∧
      (c.action.touches .visibleDecimalPlaces = false → g.decimalPlaces = f.decimalPlaces) := by
  rcases applyChange_eq_ok h with ⟨-, rfl⟩ | ⟨u, n, s, v, q, ha, hq, hset⟩
  · exact ⟨rfl, fun _ => rfl, fun _ => rfl⟩
  · have hphysical : q.requirements.physical = false := by
      rw [ha, Action.isPhysical, Action.requirements, classify_eq, hq] at hc
      exact hc
    obtain ⟨hfixed, hdefault, hplaces⟩ := Field.fixed_of_alters hphysical (Field.alters_of_set hset)
    have hne : ∀ p, c.action.touches p = false → q ≠ p := by
      intro p hp e
      subst e
      simp [ha, Action.touches, hq] at hp
    exact ⟨hfixed, fun hp => hdefault (hne _ hp), fun hp => hplaces (hne _ hp)⟩

end Record

namespace Draft

variable {t : Table} {d : Draft} {l : List Planned}

/-- What an edit in place changes only if it sets the property, a field keeps whose edits do not. -/
theorem eq_of_untouched {α : Type} {V : Field → α} {x : Property}
    (hV : ∀ c f g, c.action.isPhysical = false → Record.applyChange f c = .ok g →
      c.action.touches x = false → V g = V f)
    (hl : ∀ p ∈ l, p.action.isPhysical = false) (h : (Draft.of t).applyAll l = .ok d) {r : Row}
    (hr : r ∈ d.rows) {o : Origin} (ho : r.origin = some o) {f : Field}
    (hf : t.fields[o.position]? = some f)
    (hx : ∀ p ∈ l, r.uid = some p.uid → p.action.touches x = false) : V r.field = V f := by
  have hkeeps := (keeps_of V (fun a => a.isPhysical || a.touches x) t).applyAll
    (fun c f g hc hchange => hV c f g (Bool.or_eq_false_iff.1 hc).1 hchange
      (Bool.or_eq_false_iff.1 hc).2) h
  obtain ⟨f', hf', -, hval⟩ := hkeeps r hr o ho
  rw [hf] at hf'
  cases hf'
  exact hval fun p hp hu => Bool.or_eq_false_iff.2 ⟨hl p hp, hx p hp hu⟩

/-- As many fields are in the key, so that it is declared in the same place. -/
theorem length_primaryKey_of_sameRows (h : SameRows Field.fixed (Draft.of t) d) :
    d.table.primaryKey.length = t.primaryKey.length := by
  have hlength : ∀ t : Table, t.primaryKey.length =
      (t.fields.map Field.fixed).countP (·.constraints.primaryKey) := by
    intro t
    rw [Table.primaryKey, List.length_map, ← List.countP_eq_length_filter, List.countP_map]
    rfl
  rw [hlength, hlength, (fields_perm_of_sameRows h).countP_eq]

/-- Where a row comes from, and what of its column edits in place may have changed. -/
theorem column_of_applyAll (hl : ∀ p ∈ l, p.action.KeepsNames ∧ p.action.isPhysical = false)
    (h : (Draft.of t).applyAll l = .ok d) {row : Row} (hrow : row ∈ d.rows) :
    ∃ (i : Nat) (f : Field), t.fields[i]? = some f ∧ f.name = row.field.name ∧
      d.table.column row.field = { t.column f with
        type := .of row.field
        default := row.field.default.filter fun v => !v.isNull } ∧
      (f.type.isFloating = false ∨ f.precision = none ∨
          row.field.decimalPlaces = f.decimalPlaces → Sql.ColumnType.of row.field = .of f) ∧
      ((∀ p ∈ l, row.uid = some p.uid → p.action.touches .visibleDecimalPlaces = false) →
        row.field.decimalPlaces = f.decimalPlaces) ∧
      ((∀ p ∈ l, row.uid = some p.uid → p.action.touches .defaultValue = false) →
        row.field.default = f.default) := by
  have hphysical : ∀ p ∈ l, p.action.isPhysical = false := fun p hp => (hl p hp).2
  have hrows : SameRows Field.fixed (Draft.of t) d :=
    sameRows_of_applyAll (fun p hp => (hl p hp).1)
      (fun p hp _ _ hchange => (Record.fixed_of_applyChange (hphysical p hp) hchange).1) h
  obtain ⟨i, f, hf, hfixed, horigin⟩ := origin_of_sameRows hrows hrow
  have hfixed := hfixed.symm
  refine ⟨i, f, hf, (Field.name_of_fixed hfixed).symm, ?_, Field.columnType_of_fixed hfixed, ?_, ?_⟩
  · rw [Table.column, length_primaryKey_of_sameRows hrows]
    exact Field.column_of_fixed hfixed _
  · exact eq_of_untouched (fun _ _ _ hc hchange => (Record.fixed_of_applyChange hc hchange).2.2)
      hphysical h hrow horigin hf
  · exact eq_of_untouched (fun _ _ _ hc hchange => (Record.fixed_of_applyChange hc hchange).2.1)
      hphysical h hrow horigin hf

end Draft

namespace Alteration

variable {actions : List Action} {l : List Planned} {r : Reduction} {t : Table} {d : Draft}

/-- Edits in place leave the columns as they are, but for the defaults of fields whose default is
edited. Of a floating-point field with a precision whose decimal places are edited the type is left
open. -/
theorem inPlace_columns (hp : planAll actions = .ok l) (hr : Reduction.of l = .ok r)
    (hphysical : r.requirements.physical = false) (hd : edited t r.ordered = .ok d) :
    d.table.names.Perm t.names ∧ ∀ row ∈ d.rows, ∃ f, t.field? row.field.name = some f ∧
      d.table.column row.field = { t.column f with
        type := (d.table.column row.field).type
        default := row.field.default.filter fun v => !v.isNull } ∧
      (f.type.isFloating = false ∨ f.precision = none ∨
          row.field.decimalPlaces = f.decimalPlaces →
        (d.table.column row.field).type = (t.column f).type) ∧
      ((∀ p ∈ r.ordered, row.uid = some p.uid →
          p.action.touches .visibleDecimalPlaces = false) →
        row.field.decimalPlaces = f.decimalPlaces) ∧
      ((∀ p ∈ r.ordered, row.uid = some p.uid → p.action.touches .defaultValue = false) →
        (d.table.column row.field).default = (t.column f).default) := by
  have hkeeps : ∀ p ∈ r.ordered, p.action.KeepsNames ∧ p.action.isPhysical = false := by
    intro p hpr
    have hneeds := Reduction.requirements_of_mem hp hr p hpr
    refine ⟨Reduction.keepsNames hp hr hphysical p hpr, ?_⟩
    rw [Action.isPhysical, hneeds]
    exact Reduction.physical_of_mem hphysical hpr
  obtain ⟨hdistinct, htags⟩ := sameTags_of_edited (fun p hp => (hkeeps p hp).1) hd
  have hnames := Draft.names_perm_of_sameTags htags
  have hold : t.NamesDistinct := Table.namesDistinct_of_perm hnames hdistinct
  refine ⟨hnames, fun row hrow => ?_⟩
  obtain ⟨d0, h0, -, rfl⟩ := edited_eq_ok hd
  obtain ⟨i, f, hf, hname, hcolumn, htype, hplaces, hdefault⟩ :=
    Draft.column_of_applyAll hkeeps h0 hrow
  refine ⟨f, hname ▸ hold.field?_of_getElem? hf, hcolumn, htype, hplaces, fun hkept => ?_⟩
  have hfilter := congrArg (Option.filter fun v => !v.isNull) (hdefault hkept)
  exact hfilter

/-- A field without a default, one with a precision, and one without. -/
def priced : Table :=
  ⟨"t", [{ name := "a", type := .integer, constraints := { primaryKey := true } },
    { name := "b", type := .double, precision := some 10, decimalPlaces := some 2 },
    { name := "c", type := .double, decimalPlaces := some 2 }], []⟩

/-- The second field gets a default and goes to the front, the third other decimal places. -/
def newDefault : List Action :=
  [.change ⟨1⟩ "b" "defaultValue" (.int 7), .change ⟨2⟩ "c" "visibleDecimalPlaces" (.int 4),
    .move ⟨1⟩ "b" 0]

/-- The new default is all that the columns do not have in common. -/
theorem inPlace_columns_of_default : ∃ l r d, planAll newDefault = .ok l ∧
    Reduction.of l = .ok r ∧ r.requirements.physical = false ∧ edited priced r.ordered = .ok d ∧
    d.table.names = ["b", "a", "c"] ∧
    ∀ row ∈ d.rows, ∃ f, priced.field? row.field.name = some f ∧
      d.table.column row.field =
        { priced.column f with default := row.field.default.filter fun v => !v.isNull } ∧
      (row.uid ≠ some ⟨1⟩ → d.table.column row.field = priced.column f) := by
  obtain ⟨l, r, d, hl, hr, hphysical, hd, hnames, hthird, htouches⟩ : ∃ l r d,
      planAll newDefault = .ok l ∧ Reduction.of l = .ok r ∧ r.requirements.physical = false ∧
      edited priced r.ordered = .ok d ∧ d.table.names = ["b", "a", "c"] ∧
      (∀ row ∈ d.rows, row.uid = some ⟨2⟩ → row.field.name = "c") ∧
      ∀ p ∈ r.ordered, (p.uid ≠ ⟨2⟩ → p.action.touches .visibleDecimalPlaces = false) ∧
        (p.uid ≠ ⟨1⟩ → p.action.touches .defaultValue = false) :=
    ⟨_, _, _, rfl, rfl, rfl, rfl, rfl, by decide +kernel, by decide +kernel⟩
  refine ⟨l, r, d, hl, hr, hphysical, hd, hnames, fun row hrow => ?_⟩
  obtain ⟨f, hf, hcolumn, htype, hplaces, hdefault⟩ :=
    (inPlace_columns hl hr hphysical hd).2 row hrow
  have hkept : f.type.isFloating = false ∨ f.precision = none ∨
      row.field.decimalPlaces = f.decimalPlaces := by
    by_cases hu : row.uid = some ⟨2⟩
    · rw [hthird row hrow hu] at hf
      cases hf
      exact .inr (.inl rfl)
    · refine .inr (.inr (hplaces fun p hp hup => (htouches p hp).1 fun e => hu ?_))
      rw [hup, e]
  rw [htype hkept] at hcolumn
  refine ⟨f, hf, hcolumn, fun hu => ?_⟩
  have hsame : row.field.default.filter (fun v => !v.isNull) = (priced.column f).default :=
    hdefault fun p hp hup => (htouches p hp).2 fun e => hu (by rw [hup, e])
  rw [hcolumn, hsame]

/-- A default that is set in place, and so are decimal places, would be written into the column. -/
theorem inPlace_column_differs :
    (∃ l r d, planAll [.change ⟨0⟩ "a" "defaultValue" (.int 5)] = .ok l ∧
      Reduction.of l = .ok r ∧ r.requirements.physical = false ∧
      edited priced r.ordered = .ok d ∧ ∃ f f', priced.field? "a" = some f ∧
        d.table.field? "a" = some f' ∧
        (priced.column f).write? .sqlite = some "\"a\" integer PRIMARY KEY" ∧
        (d.table.column f').write? .sqlite = some "\"a\" integer DEFAULT 5 PRIMARY KEY") ∧
    ∃ l r d, planAll [.change ⟨1⟩ "b" "visibleDecimalPlaces" (.int 3)] = .ok l ∧
      Reduction.of l = .ok r ∧ r.requirements.physical = false ∧
      edited priced r.ordered = .ok d ∧ ∃ f f', priced.field? "b" = some f ∧
        d.table.field? "b" = some f' ∧
        (priced.column f).write? .sqlite = some "\"b\" real(10, 2)" ∧
        (d.table.column f').write? .sqlite = some "\"b\" real(10, 3)" :=
  ⟨⟨_, _, _, rfl, rfl, rfl, rfl, _, _, rfl, rfl, by decide +kernel, by decide +kernel⟩,
    _, _, _, rfl, rfl, rfl, rfl, _, _, rfl, rfl, by decide +kernel, by decide +kernel⟩

end Alteration

end TableAlteration
