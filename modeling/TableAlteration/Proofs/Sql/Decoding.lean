import TableAlteration.Proofs.Decimal.Reader
import TableAlteration.Proofs.Sql.Literals

namespace TableAlteration.Sql

open Lexer

/-- What a literal means to a dialect. -/
inductive Literal where
  | null
  | flag (b : Bool)
  | number (n : Numeral)
  | text (s : String)
  | bytes (bs : List UInt8)
  deriving DecidableEq, Repr

/-- What MySQL reads for a backslash and the character behind it. -/
def unescaped : Char → List Char
  | '0' => ['\x00']
  | 'b' => ['\x08']
  | 'n' => ['\n']
  | 'r' => ['\r']
  | 't' => ['\t']
  | 'Z' => ['\x1a']
  | '%' => ['\\', '%']
  | '_' => ['\\', '_']
  | c => [c]

/-- The text from behind its opening quote to its closing one, and what follows it. -/
def unquoted? (d : Dialect) : List Char → Option (List Char × List Char)
  | [] => none
  | '\'' :: '\'' :: w => (unquoted? d w).map (Prod.map ('\'' :: ·) id)
  | '\'' :: w => some ([], w)
  | [_] => none
  | c :: e :: w =>
    if d.escapes ∧ c = '\\' then (unquoted? d w).map (Prod.map (unescaped e ++ ·) id)
    else (unquoted? d (e :: w)).map (Prod.map (c :: ·) id)

def hexValue? (c : Char) : Option Nat :=
  if '0' ≤ c ∧ c ≤ '9' then some (c.toNat - '0'.toNat)
  else if 'A' ≤ c ∧ c ≤ 'F' then some (c.toNat - 'A'.toNat + 10)
  else if 'a' ≤ c ∧ c ≤ 'f' then some (c.toNat - 'a'.toNat + 10)
  else none

/-- Two digits for each byte. -/
def bytesOfHex? : List Char → Option (List UInt8)
  | [] => some []
  | [_] => none
  | c :: e :: w => do
    let high ← hexValue? c
    let low ← hexValue? e
    let bs ← bytesOfHex? w
    some (UInt8.ofNat (16 * high + low) :: bs)

namespace Literal

/-- A quoted text and what follows it: nothing or, in PostgreSQL, a cast of hexadecimal digits to
bytes. -/
def ofQuoted? (d : Dialect) : List Char × List Char → Option Literal
  | (w, []) => some (text (String.ofList w))
  | ('\\' :: 'x' :: w, rest) =>
    if d = .postgres ∧ rest = "::bytea".toList then (bytesOfHex? w).map bytes else none
  | _ => none

def keyword? : List Char → Option Literal
  | ['N', 'U', 'L', 'L'] => some null
  | ['T', 'R', 'U', 'E'] => some (flag true)
  | ['F', 'A', 'L', 'S', 'E'] => some (flag false)
  | _ => none

/-- To PostgreSQL quoted digits behind an `X` are a string of bits. -/
def ofWord? (d : Dialect) : List Char → Option Literal
  | '\'' :: w => (unquoted? d w).bind (ofQuoted? d)
  | 'X' :: '\'' :: w =>
    if d = .postgres then none
    else (unquoted? d w).bind fun (hex, rest) =>
      if rest = [] then (bytesOfHex? hex).map bytes else none
  | w => keyword? w <|> (Numeral.read? w).map number

/-- The text is one literal, and nothing else. -/
def read? (d : Dialect) (s : String) : Option Literal :=
  match (Lexer.run d ⟨[], .outside []⟩ s.toList).tokens? with
  | some [.word w] => ofWord? d w.toList
  | _ => none

end Literal

section Quoted

variable {d : Dialect} {w r : List Char} {c : Char}

theorem unquoted?_quotes (d : Dialect) (w : List Char) :
    unquoted? d ('\'' :: '\'' :: w) = (unquoted? d w).map (Prod.map ('\'' :: ·) id) := rfl

theorem unquoted?_end (d : Dialect) (h : ∀ v, w ≠ '\'' :: v) :
    unquoted? d ('\'' :: w) = some ([], w) := by
  rw [unquoted?]
  exact h

theorem unquoted?_backslashes (hd : d.escapes) (w : List Char) :
    unquoted? d ('\\' :: '\\' :: w) = (unquoted? d w).map (Prod.map ('\\' :: ·) id) := by
  simp [unquoted?, hd, unescaped]

theorem unquoted?_inert (hc : inert d c) (w : List Char) :
    unquoted? d (c :: w) = (unquoted? d w).map (Prod.map (c :: ·) id) := by
  simp only [inert, Bool.and_eq_true, Bool.not_eq_true', bne_iff_ne] at hc
  obtain ⟨hq, he⟩ := hc
  have he : ¬ (d.escapes ∧ c = '\\') := by simpa using he
  cases w with
  | nil => simp [unquoted?]
  | cons e w => simp [unquoted?, hq, he]

theorem unquoted?_inert_all (hw : w.all (inert d)) (hr : ∀ v, r ≠ '\'' :: v) :
    unquoted? d (w ++ '\'' :: r) = some (w, r) := by
  induction w with
  | nil => exact unquoted?_end d hr
  | cons c w ih =>
    rw [List.all_cons, Bool.and_eq_true] at hw
    rw [List.cons_append, unquoted?_inert hw.1, ih hw.2]
    rfl

theorem unquoted?_doubled_quotes (hd : d.escapes = false) (s : List Char) :
    unquoted? d (doubled '\'' s ++ ['\'']) = some (s, []) := by
  induction s with
  | nil => rfl
  | cons a s ih =>
    rw [doubled_cons, List.append_assoc]
    split
    · next h => rw [List.cons_append, List.cons_append, List.nil_append, unquoted?_quotes, ih, h]; rfl
    · next h =>
      rw [List.singleton_append, unquoted?_inert (by simp [inert, h, hd]), ih]
      rfl

theorem unquoted?_doubled_backslashes (hd : d.escapes) (s : List Char) :
    unquoted? d (doubled '\\' (doubled '\'' s) ++ ['\'']) = some (s, []) := by
  induction s with
  | nil => rfl
  | cons a s ih =>
    rw [doubled_cons, doubled_append, List.append_assoc]
    by_cases hq : a = '\''
    · subst hq
      have hpair : doubled '\\' ['\'', '\''] = ['\'', '\''] := by decide
      rw [if_pos rfl, hpair, List.cons_append, List.singleton_append, unquoted?_quotes, ih]
      rfl
    · rw [if_neg hq]
      by_cases hb : a = '\\'
      · subst hb
        have hpair : doubled '\\' ['\\'] = ['\\', '\\'] := by decide
        rw [hpair, List.cons_append, List.singleton_append, unquoted?_backslashes hd, ih]
        rfl
      · have hone : doubled '\\' [a] = [a] := by simp [doubled, hb]
        rw [hone, List.singleton_append, unquoted?_inert (by simp [inert, hq, hb]), ih]
        rfl

end Quoted

section Hex

theorem hexValue?_hexDigit (n : Nat) : hexValue? (Text.hexDigit n).toUpper = some (n % 16) := by
  have hn : n % 16 < 16 := Nat.mod_lt _ (by decide)
  revert hn
  rw [Text.hexDigit]
  generalize n % 16 = k
  revert k
  decide

theorem bytesOfHex?_upperHexBytes (bs : List UInt8) :
    bytesOfHex? (Text.upperHexBytes bs) = some bs := by
  induction bs with
  | nil => rfl
  | cons b bs ih =>
    have hdigits : Text.upperHexBytes (b :: bs) = (Text.hexDigit (b.toNat / 16)).toUpper ::
        (Text.hexDigit b.toNat).toUpper :: Text.upperHexBytes bs := by
      simp [Text.upperHexBytes, Text.hexBytes]
    have hbyte : UInt8.ofNat (16 * (b.toNat / 16 % 16) + b.toNat % 16) = b := by
      have hlt := b.toNat_lt
      have hvalue : 16 * (b.toNat / 16 % 16) + b.toNat % 16 = b.toNat := by omega
      rw [hvalue, UInt8.ofNat_toNat]
    rw [hdigits, bytesOfHex?, hexValue?_hexDigit, hexValue?_hexDigit, ih]
    exact congrArg (fun b => some (b :: bs)) hbyte

end Hex

namespace Literal

variable {d : Dialect} {w : List Char}

theorem read?_of_whole {s : String} (h : Whole d s.toList) : read? d s = ofWord? d s.toList := by
  have hreads := h.reads []
  simp only [read?, hreads, List.nil_append, String.toList_ofList]

theorem ofWord?_enclosed {s : String} (h : unquoted? d (w ++ ['\'']) = some (s.toList, [])) :
    ofWord? d (enclosed '\'' w) = some (text s) := by
  rw [enclosed, List.cons_append, ofWord?, h]
  simp [ofQuoted?]

theorem ofWord?_textLiteral (d : Dialect) (s : String) :
    ofWord? d (textLiteral d s).toList = some (text s) := by
  cases d with
  | mysql =>
    simp only [textLiteral, String.toList_ofList]
    exact ofWord?_enclosed (unquoted?_doubled_backslashes rfl _)
  | sqlite =>
    simp only [textLiteral, String.toList_ofList]
    exact ofWord?_enclosed (unquoted?_doubled_quotes rfl _)
  | postgres =>
    simp only [textLiteral, String.toList_ofList]
    exact ofWord?_enclosed (unquoted?_doubled_quotes rfl _)

theorem ofWord?_bytesLiteral (d : Dialect) (bs : List UInt8) :
    ofWord? d (bytesLiteral d bs).toList = some (bytes bs) := by
  have hdigits : (Text.upperHexBytes bs).all (inert d) := inert_upperHexBytes d bs
  cases d with
  | postgres =>
    have hinner := unquoted?_inert_all (w := '\\' :: 'x' :: Text.upperHexBytes bs)
      (r := "::bytea".toList) (d := .postgres)
      (by rw [List.all_cons, List.all_cons, hdigits]; decide) (by simp)
    have hword : (bytesLiteral .postgres bs).toList =
        '\'' :: (('\\' :: 'x' :: Text.upperHexBytes bs) ++ '\'' :: "::bytea".toList) := by
      simp [bytesLiteral]
    rw [hword, ofWord?, hinner]
    simp [ofQuoted?, bytesOfHex?_upperHexBytes]
  | sqlite | mysql =>
    have hinner := unquoted?_inert_all (r := []) hdigits (by simp)
    simp [bytesLiteral, ofWord?, hinner, bytesOfHex?_upperHexBytes]

/-- No keyword and no quote is made of the characters of numbers. -/
theorem ofWord?_of_numeric (h : Decimal.Numeric w) :
    ofWord? d w = (Numeral.read? w).map number := by
  have hnot : ∀ c v, Decimal.numeric c = false → w ≠ c :: v := by
    intro c v hc e
    have hall := h.all
    rw [e, List.all_cons, hc, Bool.false_and] at hall
    cases hall
  have hkeyword : keyword? w = none := by
    unfold keyword?
    split
    · exact absurd rfl (hnot 'N' _ (by decide))
    · exact absurd rfl (hnot 'T' _ (by decide))
    · exact absurd rfl (hnot 'F' _ (by decide))
    · rfl
  unfold ofWord?
  split
  · exact absurd rfl (hnot '\'' _ (by decide))
  · exact absurd rfl (hnot 'X' _ (by decide))
  · rw [hkeyword]
    rfl

theorem ofWord?_toString (d : Dialect) (i : Int) :
    ofWord? d (toString i).toList = some (number ⟨i, 0⟩) := by
  rw [ofWord?_of_numeric (.toString_int i), Numeral.read?_toString]
  rfl

/-- Truth values have keywords in PostgreSQL and digits elsewhere. -/
theorem ofWord?_flagLiteral (d : Dialect) (b : Bool) :
    ofWord? d (flagLiteral d b).toList =
      some (if d = .postgres then flag b else number ⟨if b then 1 else 0, 0⟩) := by
  cases d <;> cases b <;> decide +kernel

/-- By its own kind every value is read as some literal, and texts and bytes as what they are. -/
theorem ofWord?_literal (d : Dialect) (v : Value) :
    ∃ x, ofWord? d (literal d v).toList = some x ∧
      (∀ s, v = .text s → x = text s) ∧ (∀ bs, v = .bytes bs → x = bytes bs) := by
  cases v with
  | null => exact ⟨null, by cases d <;> decide +kernel, by simp, by simp⟩
  | bool b => exact ⟨_, ofWord?_flagLiteral d b, by simp, by simp⟩
  | int i => exact ⟨_, ofWord?_toString d i.toInt, by simp, by simp⟩
  | float x =>
    rw [literal]
    split
    · rename_i hx
      obtain ⟨n, hn⟩ := Numeral.read?_write .literal hx
      refine ⟨number n, ?_, by simp, by simp⟩
      rw [ofWord?_of_numeric (.write _ hx), hn]
      rfl
    · exact ⟨null, by cases d <;> decide +kernel, by simp, by simp⟩
  | text s =>
    refine ⟨_, ofWord?_textLiteral d s, fun s' h => ?_, by simp⟩
    cases h
    rfl
  | bytes bs =>
    refine ⟨_, ofWord?_bytesLiteral d bs, by simp, fun bs' h => ?_⟩
    cases h
    rfl
  | date t | dateTime t | time t => exact ⟨_, ofWord?_textLiteral d _, by simp, by simp⟩

/-- The literal stands for the value as far as its column takes it: a text is that text, unless it
is taken as a flag or as an integer there, and integers and bytes are what they are. -/
structure Decodes (t : FieldType) (v : Value) (x : Literal) : Prop where
  null : v = .null → x = null
  text : ∀ s, v = .text s → x = text s ∨
    (∀ s', x ≠ text s') ∧
      (t = .boolean ∧ v.flag?.isSome ∨ t.isInteger ∧ v.integer?.isSome)
  bytes : ∀ bs, v = .bytes bs → t.isText = false → x = bytes bs
  integer : t.isInteger → (∃ i, v = .int i) ∨ (∃ b, v = .bool b) →
    ∃ i, v.integer? = some i ∧ x = number ⟨i.toInt, 0⟩

section Columns

variable {t : FieldType} {v : Value} {x : Literal}

theorem decodes_null (t : FieldType) : Decodes t .null null where
  null _ := rfl
  text _ h := by cases h
  bytes _ h := by cases h
  integer _ h := by
    rcases h with ⟨_, h⟩ | ⟨_, h⟩
    · cases h
    · cases h

theorem decodes_flag {b : Bool} (hv : v.flag? = some b) (hx : ∀ s, x ≠ text s) :
    Decodes .boolean v x where
  null h := by
    rw [h] at hv
    cases hv
  text _ _ := .inr ⟨hx, .inl ⟨rfl, by rw [hv]; rfl⟩⟩
  bytes _ h := by
    rw [h] at hv
    cases hv
  integer h := by cases h

theorem decodes_integer {i : Int64} (hv : v.integer? = some i) (ht : t.isInteger) :
    Decodes t v (number ⟨i.toInt, 0⟩) where
  null h := by
    rw [h] at hv
    cases hv
  text _ _ := .inr ⟨by simp, .inr ⟨ht, by rw [hv]; rfl⟩⟩
  bytes _ h := by
    rw [h] at hv
    cases hv
  integer _ _ := ⟨i, hv, rfl⟩

theorem decodes_written (hnull : v.isNull = false) (ht : t.isText) :
    Decodes t v (text v.write) where
  null h := by
    rw [h] at hnull
    cases hnull
  text _ h := by
    rw [h]
    exact .inl rfl
  bytes _ _ h := by
    rw [ht] at h
    cases h
  integer h := by cases t <;> simp [FieldType.isInteger, FieldType.isText] at h ht

theorem decodes_literal (hnull : v.isNull = false) (htext : ∀ s, v = .text s → x = text s)
    (hbytes : ∀ bs, v = .bytes bs → x = bytes bs) (ht : t.isInteger → v.integer? = none) :
    Decodes t v x where
  null h := by
    rw [h] at hnull
    cases hnull
  text s h := .inl (htext s h)
  bytes bs h _ := hbytes bs h
  integer h hv := by
    have hnone := ht h
    rcases hv with ⟨_, rfl⟩ | ⟨_, rfl⟩
    · cases hnone
    · cases hnone

end Columns

end Literal

/-- What is written for a value is one literal, whatever the value and the type of its column, and
it is read as that value. -/
theorem valueLiteral_decodes (d : Dialect) (t : FieldType) (v : Value) :
    ∃ x, Literal.read? d (valueLiteral d t v) = some x ∧ Literal.Decodes t v x := by
  rw [Literal.read?_of_whole (whole_valueLiteral d t v)]
  obtain ⟨y, hy, htext, hbytes⟩ := Literal.ofWord?_literal d v
  unfold valueLiteral
  split
  · rename_i hnull
    cases v with
    | null => exact ⟨.null, by cases d <;> decide +kernel, Literal.decodes_null t⟩
    | _ => cases hnull
  · rename_i hnull
    have hnull : v.isNull = false := by simpa using hnull
    split
    · rename_i ht
      subst ht
      split
      · rename_i b hb
        refine ⟨_, Literal.ofWord?_flagLiteral d b, Literal.decodes_flag hb fun s => ?_⟩
        split <;> simp
      · exact ⟨y, hy, Literal.decodes_literal hnull htext hbytes fun h => by cases h⟩
    · split
      · rename_i ht
        split
        · rename_i i hi
          exact ⟨_, Literal.ofWord?_toString d i.toInt, Literal.decodes_integer hi ht⟩
        · rename_i hnone
          exact ⟨y, hy, Literal.decodes_literal hnull htext hbytes fun _ => hnone⟩
      · rename_i hint
        split
        · rename_i ht
          exact ⟨_, Literal.ofWord?_textLiteral d v.write, Literal.decodes_written hnull ht⟩
        · exact ⟨y, hy, Literal.decodes_literal hnull htext hbytes fun h => absurd h hint⟩

/-- Quotes and backslashes in a row, up to the end. -/
example : Literal.read? .mysql (valueLiteral .mysql .longText (.text "it's '\\'\\")) =
    some (.text "it's '\\'\\") := by decide +kernel

end TableAlteration.Sql
