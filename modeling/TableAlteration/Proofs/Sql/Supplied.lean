import TableAlteration.Proofs.CopyPlan
import TableAlteration.Proofs.Run.Basic
import TableAlteration.Proofs.Sql.Decoding
import TableAlteration.Sql.Statement

namespace TableAlteration

namespace Value

/-- In a column of the type the value has no literal but null. -/
def becomesNull (t : FieldType) : Value → Bool
  | null => true
  | float x => !t.isText && !x.isFinite
  | _ => false

/-- Every value but null and the empty text is written as something. -/
theorem write_eq_empty {v : Value} (h : v.write = "") : v = null ∨ v = text "" := by
  have hlist : v.write.toList = [] := by rw [h]; rfl
  cases v with
  | null => exact .inl rfl
  | text s => exact .inr (congrArg text h)
  | bool b => cases b <;> simp [write] at h
  | int i => exact absurd hlist (Decimal.Numeric.toString_int i.toInt).ne_nil
  | float x =>
    rw [write] at hlist
    by_cases hx : x.isFinite
    · exact absurd hlist (Decimal.Numeric.write .plain hx).ne_nil
    · simp only [Decimal.Format.write, hx] at hlist
      split at hlist
      · simp at hlist
      · split at hlist <;> simp at hlist
  | bytes | date | dateTime | time =>
    simp [write, Calendar.Date.write, Calendar.DateTime.write, Calendar.Time.write,
      Calendar.Time.writeSeconds] at hlist

end Value

namespace Sql

variable {d : Dialect} {t : FieldType} {v : Value} {s : String} {x : Literal}

theorem ofWord?_null (d : Dialect) : Literal.ofWord? d "NULL".toList = some .null := by
  cases d <;> decide +kernel

/-- What is read as something else is not null. -/
theorem ne_null_of_reads (h : Literal.ofWord? d s.toList = some x) (hx : x ≠ .null) :
    s ≠ "NULL" := by
  rintro rfl
  rw [ofWord?_null] at h
  exact hx (Option.some.inj h).symm

theorem textLiteral_ne_null (d : Dialect) (s : String) : textLiteral d s ≠ "NULL" :=
  ne_null_of_reads (Literal.ofWord?_textLiteral d s) (by simp)

theorem flagLiteral_ne_null (d : Dialect) (b : Bool) : flagLiteral d b ≠ "NULL" :=
  ne_null_of_reads (Literal.ofWord?_flagLiteral d b) (by split <;> simp)

theorem toString_ne_null (i : Int) : toString i ≠ "NULL" :=
  ne_null_of_reads (Literal.ofWord?_toString .sqlite i) (by simp)

theorem literal_ne_null (hv : v.isNull = false) (hx : ∀ x, v = .float x → x.isFinite) :
    literal d v ≠ "NULL" := by
  cases v with
  | null => cases hv
  | bool b => exact flagLiteral_ne_null d b
  | int i => exact toString_ne_null i.toInt
  | float x =>
    have hx := hx x rfl
    obtain ⟨n, hn⟩ := Numeral.read?_write .literal hx
    rw [literal, if_pos hx]
    refine ne_null_of_reads (d := d) (x := .number n) ?_ (by simp)
    rw [Literal.ofWord?_of_numeric (.write _ hx), hn]
    rfl
  | text s => exact textLiteral_ne_null d s
  | bytes bs => exact ne_null_of_reads (Literal.ofWord?_bytesLiteral d bs) (by simp)
  | date t | dateTime t | time t => exact textLiteral_ne_null d _

/-- Into a column of texts everything but null goes as it is written. -/
theorem valueLiteral_of_isText (d : Dialect) (ht : t.isText) (hv : v.isNull = false) :
    valueLiteral d t v = textLiteral d v.write := by
  cases t with
  | text | longText => simp [valueLiteral, hv, FieldType.isInteger, FieldType.isText]
  | _ => cases ht

theorem valueLiteral_ne_null (h : v.becomesNull t = false) : valueLiteral d t v ≠ "NULL" := by
  have hv : v.isNull = false := by
    cases v with
    | null => cases h
    | _ => rfl
  by_cases ht : t.isText
  · rw [valueLiteral_of_isText d ht hv]
    exact textLiteral_ne_null d v.write
  · have hliteral : literal d v ≠ "NULL" := by
      refine literal_ne_null hv fun x hx => ?_
      rw [hx] at h
      simpa [Value.becomesNull, ht] using h
    unfold valueLiteral
    rw [if_neg (by simp [hv]), if_neg ht]
    split
    · split
      · exact flagLiteral_ne_null d _
      · exact hliteral
    · split
      · split
        · exact toString_ne_null _
        · exact hliteral
      · exact hliteral

theorem valueLiteral_eq_null (d : Dialect) (t : FieldType) (v : Value) :
    valueLiteral d t v = "NULL" ↔ v.becomesNull t := by
  constructor
  · intro h
    by_contra hnot
    exact valueLiteral_ne_null (by simpa using hnot) h
  · intro h
    cases v with
    | null => rfl
    | float x =>
      simp only [Value.becomesNull, Bool.and_eq_true, Bool.not_eq_true'] at h
      cases t <;>
        simp [valueLiteral, Value.isNull, Value.flag?, Value.integer?, literal, h,
          FieldType.isInteger]
    | _ => cases h

theorem textLiteral_eq_empty : textLiteral d s = "''" ↔ s = "" := by
  have hempty : textLiteral d "" = "''" := by cases d <;> decide +kernel
  refine ⟨fun h => ?_, fun h => by rw [h, hempty]⟩
  have hs := Literal.ofWord?_textLiteral d s
  rw [h, ← hempty, Literal.ofWord?_textLiteral] at hs
  exact (Literal.text.inj (Option.some.inj hs)).symm

/-- In a column of texts the empty text alone has the empty literal. -/
theorem valueLiteral_eq_empty (d : Dialect) (ht : t.isText) :
    valueLiteral d t v = "''" ↔ v = .text "" := by
  by_cases hnull : v = .null
  · have hliteral : valueLiteral d t .null ≠ "''" := by
      have hnull : valueLiteral d t .null = "NULL" := rfl
      rw [hnull]
      decide
    subst hnull
    simp [hliteral]
  · have hv : v.isNull = false := by
      cases v with
      | null => exact absurd rfl hnull
      | _ => rfl
    rw [valueLiteral_of_isText d ht hv, textLiteral_eq_empty]
    exact ⟨fun h => (Value.write_eq_empty h).resolve_left hnull, fun h => by rw [h]; rfl⟩

end Sql

namespace CopyPlan

variable {clock : Clock} {f : Field} {c : CopyColumn}

/-- A field without a column to continue is filled with its default or with a placeholder. -/
theorem column?_supplied (h : column? clock f none = some c) :
    (∃ v, f.default = some v ∧ c = ⟨f.name, f.type, .default v⟩) ∨
    (f.default = none ∧ f.constraints.notNull ∧
      c = ⟨f.name, f.type, .empty (f.type.emptyValue clock)⟩) ∨
    (f.default = none ∧ f.constraints.notNull = false ∧ f.constraints.notEmpty ∧
      c = ⟨f.name, f.type, .notEmpty (f.type.notEmptyValue clock)⟩) := by
  obtain ⟨s, hs, rfl⟩ := Option.map_eq_some_iff.1 h
  simp only [source?] at hs
  split at hs
  · cases hs
  · split at hs
    · rename_i v hv
      cases hs
      exact .inl ⟨v, hv, rfl⟩
    · rename_i hv
      split at hs
      · rename_i hnull
        cases hs
        exact .inr (.inl ⟨hv, hnull, rfl⟩)
      · rename_i hnull
        split at hs
        · rename_i hempty
          cases hs
          exact .inr (.inr ⟨hv, by simpa using hnull, hempty, rfl⟩)
        · cases hs

theorem becomesNull_emptyValue (t : FieldType) (clock : Clock) :
    (t.emptyValue clock).becomesNull t = false := by
  cases t <;> simp [FieldType.emptyValue, Value.becomesNull]
  all_goals decide

theorem notEmptyValue_ne_empty {t : FieldType} (ht : t.isText) (clock : Clock) :
    t.notEmptyValue clock ≠ .text "" := by
  cases t with
  | text | longText => simp [FieldType.notEmptyValue]
  | _ => cases ht

/-- A new column that forbids null is filled with null exactly if its declared default becomes null
there. One of texts that forbids empty values is filled with the empty text exactly if that is its
declared default, provided that it has a default or permits null. -/
theorem supplied_null_or_empty (d : Sql.Dialect) (h : column? clock f none = some c) :
    (f.constraints.notNull →
      (Sql.sourceExpression d c = "NULL" ↔ f.default.any (·.becomesNull f.type))) ∧
    (f.constraints.notEmpty → f.type.isText →
      (f.default.isSome ∨ f.constraints.notNull = false) →
        (Sql.sourceExpression d c = "''" ↔ f.default = some (.text ""))) := by
  rcases column?_supplied h with ⟨v, hv, rfl⟩ | ⟨hv, hnull, rfl⟩ | ⟨hv, hnull, hempty, rfl⟩
  · refine ⟨fun _ => ?_, fun _ ht _ => ?_⟩
    · rw [Sql.sourceExpression, Sql.valueLiteral_eq_null, hv]
      rfl
    · rw [Sql.sourceExpression, Sql.valueLiteral_eq_empty d ht, hv, Option.some_inj]
  · refine ⟨fun _ => ?_, fun _ _ hcase => ?_⟩
    · rw [Sql.sourceExpression, Sql.valueLiteral_eq_null, becomesNull_emptyValue, hv]
      rfl
    · rw [hv, hnull] at hcase
      simp at hcase
  · refine ⟨fun hnot => ?_, fun _ ht _ => ?_⟩
    · rw [hnull] at hnot
      cases hnot
    · rw [Sql.sourceExpression, Sql.valueLiteral_eq_empty d ht, hv]
      simp [notEmptyValue_ne_empty ht clock]

/-- A field of texts without a default, for which null would do but an empty text would not. -/
def filledField : Field := { name := "x", type := .text, constraints := { notEmpty := true } }

/-- It gets a blank, and not the empty text. -/
theorem supplied_null_or_empty_of_blank :
    ∃ c, column? newYear filledField none = some c ∧
      Sql.sourceExpression .mysql c = "' '" ∧
      (Sql.sourceExpression .mysql c = "''" ↔ filledField.default = some (.text "")) := by
  have hc : column? newYear filledField none = some ⟨"x", .text, .notEmpty (.text " ")⟩ := rfl
  refine ⟨_, hc, by decide +kernel, ?_⟩
  exact (supplied_null_or_empty .mysql hc).2 rfl rfl (.inr rfl)

/-- A column that forbids null, with what is not a number as its default. -/
def numberless : Field where
  name := "x"
  type := .double
  constraints := { notNull := true }
  default := some (.float ⟨0x7ff8000000000000⟩)

/-- A column that forbids empty texts, with the empty text as its default. -/
def emptyByDefault : Field where
  name := "x"
  type := .text
  constraints := { notEmpty := true }
  default := some (.text "")

/-- Defaults are not held against the constraints of their columns: of these two the first is filled
with null and the second with the empty text. -/
theorem supplied_against_constraints :
    numberless.constraints.notNull ∧ emptyByDefault.constraints.notEmpty ∧
      emptyByDefault.type.isText ∧
      (column? newYear numberless none).map (Sql.sourceExpression .sqlite) = some "NULL" ∧
      (column? newYear emptyByDefault none).map (Sql.sourceExpression .sqlite) = some "''" :=
  ⟨rfl, rfl, rfl, by decide +kernel, by decide +kernel⟩

end CopyPlan

end TableAlteration
