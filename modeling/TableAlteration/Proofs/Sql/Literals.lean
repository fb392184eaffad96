import TableAlteration.Proofs.Decimal.Written
import TableAlteration.Proofs.Sql.Reader
import TableAlteration.Sql.Literal

namespace TableAlteration.Sql

open Lexer

/-- Outside of quotes the text becomes a part of the word that is being read. -/
structure Whole (d : Dialect) (w : List Char) : Prop where
  ne_nil : w ≠ []
  run_eq : ∀ before read,
    run d ⟨before, .outside read⟩ w = ⟨before, .outside (read ++ w)⟩

/-- Inside of a text it becomes a part of the text. -/
def Inner (d : Dialect) (w : List Char) : Prop :=
  ∀ before read, run d ⟨before, .text read⟩ w = ⟨before, .text (read ++ w)⟩

/-- Outside of quotes the character stands for itself. -/
def plain (d : Dialect) (c : Char) : Bool :=
  !separates c && c != d.identifierQuote && c != '\''

/-- Inside of a text the character stands for itself. -/
def inert (d : Dialect) (c : Char) : Bool := c != '\'' && !(d.escapes && c == '\\')

variable {d : Dialect} {v w : List Char}

theorem step_outside_of_plain {c : Char} (h : plain d c) (before : List Token)
    (read : List Char) :
    step d ⟨before, .outside read⟩ c = ⟨before, .outside (read ++ [c])⟩ := by
  simp only [plain, Bool.and_eq_true, Bool.not_eq_true', bne_iff_ne] at h
  obtain ⟨⟨hs, hq⟩, ht⟩ := h
  simp [step, stepOutside, hs, hq, ht]

theorem step_text_of_inert {c : Char} (h : inert d c) (before : List Token) (read : List Char) :
    step d ⟨before, .text read⟩ c = ⟨before, .text (read ++ [c])⟩ := by
  simp only [inert, Bool.and_eq_true, Bool.not_eq_true', bne_iff_ne] at h
  obtain ⟨ht, he⟩ := h
  have he : ¬ (d.escapes ∧ c = '\\') := by simpa using he
  simp only [step]
  rw [if_neg ht, if_neg he]

theorem Whole.of_plain (hne : w ≠ []) (h : w.all (plain d)) : Whole d w := by
  refine ⟨hne, ?_⟩
  clear hne
  induction w with
  | nil => simp
  | cons c w ih =>
    intro before read
    rw [List.all_cons, Bool.and_eq_true] at h
    rw [run_cons, step_outside_of_plain h.1, ih h.2]
    simp

/-- The characters that mean more than themselves in one dialect or another. -/
def marks : List Char := [',', '(', ')', ';', ' ', '\t', '\r', '\n', '"', '\x60', '\'']

theorem plain_of_not_mem {c : Char} (h : c ∉ marks) : plain d c := by
  simp only [marks, List.mem_cons, List.not_mem_nil, or_false, not_or] at h
  cases d <;> simp [plain, separates, symbols, Char.isWhitespace, Dialect.identifierQuote, h]

theorem all_plain {test : Char → Bool} (hmarks : marks.all fun c => !test c) (h : w.all test) :
    w.all (plain d) := by
  rw [List.all_eq_true] at hmarks h ⊢
  intro c hc
  refine plain_of_not_mem ?_
  intro hm
  have hno := hmarks c hm
  rw [h c hc] at hno
  exact Bool.false_ne_true hno

theorem Whole.append (hv : Whole d v) (hw : Whole d w) : Whole d (v ++ w) := by
  refine ⟨by simp [hv.ne_nil], ?_⟩
  intro before read
  rw [run_append, hv.run_eq, hw.run_eq, List.append_assoc]

theorem Whole.reads (h : Whole d w) : Reads d w [.word (String.ofList w)] := by
  intro before
  rw [h.run_eq, List.nil_append]
  cases w with
  | nil => exact absurd rfl h.ne_nil
  | cons c w => rfl

theorem Inner.append (hv : Inner d v) (hw : Inner d w) : Inner d (v ++ w) := by
  intro before read
  rw [run_append, hv, hw, List.append_assoc]

theorem Inner.of_inert (h : w.all (inert d)) : Inner d w := by
  induction w with
  | nil =>
    intro before read
    simp
  | cons c w ih =>
    intro before read
    rw [List.all_cons, Bool.and_eq_true] at h
    rw [run_cons, step_text_of_inert h.1, ih h.2]
    simp

theorem separates_quote : separates '\'' = false := by decide

theorem quote_ne_identifierQuote (d : Dialect) : '\'' ≠ d.identifierQuote := by cases d <;> decide

theorem step_outside_quote (before : List Token) (read : List Char) :
    step d ⟨before, .outside read⟩ '\'' = ⟨before, .text (read ++ ['\''])⟩ := by
  simp [step, stepOutside, separates_quote, quote_ne_identifierQuote]

theorem step_text_quote (before : List Token) (read : List Char) :
    step d ⟨before, .text read⟩ '\'' = ⟨before, .outside (read ++ ['\''])⟩ := by
  simp [step]

/-- A quote written twice leaves the text and enters it again. -/
theorem Inner.quotes : Inner d ['\'', '\''] := by
  intro before read
  simp [step_text_quote, step_outside_quote]

/-- Without escapes the two backslashes stand for themselves, with them for one. -/
theorem Inner.backslashes : Inner d ['\\', '\\'] := by
  intro before read
  cases h : d.escapes <;> simp [step, h]

theorem Inner.enclosed (h : Inner d w) : Whole d (enclosed '\'' w) := by
  refine ⟨by simp [Sql.enclosed], ?_⟩
  intro before read
  simp only [Sql.enclosed, List.cons_append, run_cons, run_append, run_nil, step_outside_quote,
    h before, step_text_quote]
  simp

theorem doubled_append (c : Char) (v w : List Char) :
    doubled c (v ++ w) = doubled c v ++ doubled c w := by
  induction v with
  | nil => rfl
  | cons a v ih =>
    simp only [List.cons_append, doubled, ih]
    split <;> rfl

theorem doubled_cons (c a : Char) (w : List Char) :
    doubled c (a :: w) = (if a = c then [c, c] else [a]) ++ doubled c w := by
  simp only [doubled]
  split <;> rfl

theorem reads_keyword (d : Dialect) {w : String} (hne : w.toList ≠ [])
    (h : w.toList.all Char.isUpper) : Reads d w.toList [.word w] := by
  have hplain : w.toList.all (plain d) := all_plain (by decide) h
  simpa using (Whole.of_plain hne hplain).reads

theorem run_doubled_name (before : List Token) (read name : List Char) :
    run d ⟨before, .name read⟩ (doubled d.identifierQuote name) =
      ⟨before, .name (read ++ name)⟩ := by
  induction name generalizing read with
  | nil => simp [doubled]
  | cons a name ih =>
    rw [doubled_cons, run_append]
    split
    · next h =>
      have hpair : run d ⟨before, .name read⟩ [d.identifierQuote, d.identifierQuote] =
          ⟨before, .name (read ++ [d.identifierQuote])⟩ := by
        simp [step]
      rw [hpair, ih, ← h]
      simp
    · next h =>
      have hone : run d ⟨before, .name read⟩ [a] = ⟨before, .name (read ++ [a])⟩ := by
        simp [step, h]
      rw [hone, ih]
      simp

theorem reads_identifier (d : Dialect) (name : String) :
    Reads d (identifier d name).toList [.name name] := by
  intro before
  have hopen : step d ⟨before, .outside []⟩ d.identifierQuote = ⟨before, .name []⟩ := by
    simp [step, stepOutside, separates_identifierQuote, word]
  have hclose : step d ⟨before, .name name.toList⟩ d.identifierQuote =
      ⟨before, .quote name.toList⟩ := by
    simp [step]
  simp only [identifier, enclosed, String.toList_ofList, List.cons_append, run_cons, hopen,
    run_append, run_doubled_name, List.nil_append, hclose, run_nil]
  simp [tokens?]

theorem inner_doubled_quotes (hd : d.escapes = false) (s : List Char) :
    Inner d (doubled '\'' s) := by
  induction s with
  | nil => exact .of_inert (by simp [doubled])
  | cons a s ih =>
    rw [doubled_cons]
    refine Inner.append ?_ ih
    split
    · exact .quotes
    · next h => exact .of_inert (by simp [inert, h, hd])

theorem inner_doubled_backslashes (s : List Char) :
    Inner d (doubled '\\' (doubled '\'' s)) := by
  induction s with
  | nil => exact .of_inert (by simp [doubled])
  | cons a s ih =>
    rw [doubled_cons, doubled_append]
    refine Inner.append ?_ ih
    split
    · exact .quotes
    · next h =>
      simp only [doubled]
      split
      · exact .backslashes
      · next hb => exact .of_inert (by simp [inert, h, hb])

theorem whole_textLiteral (d : Dialect) (s : String) : Whole d (textLiteral d s).toList := by
  cases d with
  | mysql =>
    simp only [textLiteral, String.toList_ofList]
    exact (inner_doubled_backslashes _).enclosed
  | sqlite =>
    simp only [textLiteral, String.toList_ofList]
    exact (inner_doubled_quotes rfl _).enclosed
  | postgres =>
    simp only [textLiteral, String.toList_ofList]
    exact (inner_doubled_quotes rfl _).enclosed

theorem toUpper_hexDigit (n : Nat) : (Text.hexDigit n).toUpper ∈ "0123456789ABCDEF".toList := by
  have hn : n % 16 < 16 := Nat.mod_lt _ (by decide)
  revert hn
  rw [Text.hexDigit]
  generalize n % 16 = k
  revert k
  decide

theorem inert_upperHexBytes (d : Dialect) (bs : List UInt8) :
    (Text.upperHexBytes bs).all (inert d) := by
  have hdigits : "0123456789ABCDEF".toList.all (inert d) := by cases d <;> decide
  rw [List.all_eq_true] at hdigits ⊢
  intro c hc
  simp only [Text.upperHexBytes, Text.hexBytes, List.mem_map, List.mem_flatMap, List.mem_cons,
    List.not_mem_nil, or_false] at hc
  obtain ⟨_, ⟨_, _, rfl | rfl⟩, rfl⟩ := hc
  · exact hdigits _ (toUpper_hexDigit _)
  · exact hdigits _ (toUpper_hexDigit _)

theorem whole_bytesLiteral (d : Dialect) (bs : List UInt8) :
    Whole d (bytesLiteral d bs).toList := by
  have hhex := Inner.of_inert (inert_upperHexBytes d bs)
  have hmark : Whole d ['X'] := .of_plain (by decide) (by cases d <;> decide)
  cases d with
  | postgres =>
    have hinner : Inner .postgres ('\\' :: 'x' :: Text.upperHexBytes bs) :=
      Inner.append (.of_inert (by decide) : Inner .postgres ['\\', 'x']) hhex
    have hcast : Whole .postgres "::bytea".toList := .of_plain (by decide) (by decide)
    simpa [bytesLiteral, enclosed] using hinner.enclosed.append hcast
  | sqlite => simpa [bytesLiteral, enclosed] using hmark.append hhex.enclosed
  | mysql => simpa [bytesLiteral, enclosed] using hmark.append hhex.enclosed

theorem Whole.of_numeric (h : Decimal.Numeric w) : Whole d w :=
  .of_plain h.ne_nil (all_plain (by decide) h.all)

theorem whole_int (d : Dialect) (i : Int) : Whole d (toString i).toList :=
  .of_numeric (.toString_int i)

theorem whole_null (d : Dialect) : Whole d "NULL".toList :=
  .of_plain (by decide) (by cases d <;> decide)

theorem whole_flagLiteral (d : Dialect) (b : Bool) : Whole d (flagLiteral d b).toList := by
  cases d <;> cases b <;> exact .of_plain (by decide) (by decide)

theorem whole_literal (d : Dialect) (v : Value) : Whole d (literal d v).toList := by
  cases v with
  | null => exact whole_null d
  | bool b => exact whole_flagLiteral d b
  | int i => exact whole_int d i.toInt
  | float x =>
    rw [literal]
    split
    · next hx => exact .of_numeric (.write _ hx)
    · exact whole_null d
  | text s => exact whole_textLiteral d s
  | bytes bs => exact whole_bytesLiteral d bs
  | date t => exact whole_textLiteral d _
  | dateTime t => exact whole_textLiteral d _
  | time t => exact whole_textLiteral d _

theorem whole_valueLiteral (d : Dialect) (t : FieldType) (v : Value) :
    Whole d (valueLiteral d t v).toList := by
  rw [valueLiteral]
  split
  · exact whole_null d
  split
  · split
    · exact whole_flagLiteral d _
    · exact whole_literal d v
  split
  · split
    · exact whole_int d _
    · exact whole_literal d v
  split
  · exact whole_textLiteral d _
  · exact whole_literal d v

/-- Whatever the value, its literal is one word, and nothing of it is read as anything else. -/
theorem reads_valueLiteral (d : Dialect) (t : FieldType) (v : Value) :
    Reads d (valueLiteral d t v).toList [.word (valueLiteral d t v)] := by
  simpa using (whole_valueLiteral d t v).reads

end TableAlteration.Sql
