import Mathlib.Data.List.TakeWhile
import TableAlteration.Proofs.Decimal.Written

namespace TableAlteration

/-- The number `mantissa · 10 ^ exponent`. -/
structure Numeral where
  mantissa : Int
  exponent : Int
  deriving DecidableEq, Repr

/-- One digit at least, and nothing else. -/
structure Digits (w : List Char) : Prop where
  ne_nil : w ≠ []
  all : ∀ c ∈ w, c.isDigit

namespace Numeral

def natural? (w : List Char) : Option Nat :=
  if w ≠ [] ∧ w.all Char.isDigit then some (Nat.ofDigitChars 10 w 0) else none

def integer? : List Char → Option Int
  | '-' :: w => (natural? w).map fun n => -Int.ofNat n
  | '+' :: w => (natural? w).map Int.ofNat
  | w => (natural? w).map Int.ofNat

/-- The digits behind a point, if there is one, and what follows them. -/
def fraction : List Char → List Char × List Char
  | '.' :: w => (w.takeWhile Char.isDigit, w.dropWhile Char.isDigit)
  | w => ([], w)

def exponent? : List Char → Option Int
  | [] => some 0
  | 'e' :: w | 'E' :: w => integer? w
  | _ => none

def unsigned? (w : List Char) : Option Numeral :=
  let whole := w.takeWhile Char.isDigit
  let (decimals, rest) := fraction (w.dropWhile Char.isDigit)
  if whole = [] then none
  else (exponent? rest).map fun e =>
    ⟨Nat.ofDigitChars 10 (whole ++ decimals) 0, e - decimals.length⟩

def read? : List Char → Option Numeral
  | '-' :: w => (unsigned? w).map fun n => { n with mantissa := -n.mantissa }
  | w => unsigned? w

end Numeral

namespace Digits

variable {v w r : List Char}

theorem toDigits (n : Nat) : Digits (Nat.toDigits 10 n) :=
  ⟨Nat.toDigits_ne_nil, fun _ hc => Nat.isDigit_of_mem_toDigits (by decide) (by decide) hc⟩

theorem singleton {c : Char} (hc : c.isDigit) : Digits [c] :=
  ⟨by simp, fun d hd => by rwa [List.mem_singleton.1 hd]⟩

theorem append (hw : Digits w) (hv : ∀ c ∈ v, c.isDigit) : Digits (w ++ v) := by
  refine ⟨by simp [hw.ne_nil], fun c hc => ?_⟩
  rcases List.mem_append.1 hc with hc | hc
  · exact hw.all c hc
  · exact hv c hc

/-- No sign stands in front of digits. -/
theorem head_ne (hw : Digits w) (r : List Char) {c : Char} (hc : c.isDigit = false) :
    ∀ v, w ++ r ≠ c :: v := by
  intro v h
  cases w with
  | nil => exact hw.ne_nil rfl
  | cons d w =>
    have hd := hw.all d List.mem_cons_self
    rw [(List.cons.inj h).1, hc] at hd
    cases hd

end Digits

namespace Numeral

variable {v w r : List Char} {e : Int}

theorem isDigit_of_mem_zeros {n : Nat} {c : Char} (h : c ∈ Decimal.zeros n) : c.isDigit := by
  rw [List.eq_of_mem_replicate h]
  decide

theorem natural?_of_digits (hw : Digits w) : natural? w = some (Nat.ofDigitChars 10 w 0) :=
  if_pos ⟨hw.ne_nil, List.all_eq_true.2 hw.all⟩

theorem integer?_of_digits (hw : Digits w) :
    integer? w = some (Int.ofNat (Nat.ofDigitChars 10 w 0)) := by
  have hsign : ∀ c : Char, c.isDigit = false → ∀ v, w ≠ c :: v := by
    intro c hc v h
    exact hw.head_ne [] hc v (by rw [List.append_nil, h])
  unfold integer?
  split
  · exact absurd rfl (hsign '-' (by decide) _)
  · exact absurd rfl (hsign '+' (by decide) _)
  · rw [natural?_of_digits hw]
    rfl

theorem integer?_neg (hw : Digits w) :
    integer? ('-' :: w) = some (-Int.ofNat (Nat.ofDigitChars 10 w 0)) := by
  rw [integer?, natural?_of_digits hw]
  rfl

/-- An integer is written as its digits, with a sign in front of those of a negative one. -/
theorem toList_toString (i : Int) :
    (0 ≤ i ∧ (toString i).toList = Nat.toDigits 10 i.toNat) ∨
      (i < 0 ∧ (toString i).toList = '-' :: Nat.toDigits 10 (-i).toNat) := by
  rw [Int.toString_eq_repr, Int.repr_eq_if]
  split
  · rename_i hi
    exact .inl ⟨hi, by simp⟩
  · rename_i hi
    exact .inr ⟨by omega, by simp⟩

theorem integer?_toString (i : Int) : integer? (toString i).toList = some i := by
  rcases toList_toString i with ⟨hi, h⟩ | ⟨hi, h⟩
  · rw [h, integer?_of_digits (.toDigits _), Nat.ofDigitChars_ten_toDigits]
    exact congrArg some (Int.toNat_of_nonneg hi)
  · rw [h, integer?_neg (.toDigits _), Nat.ofDigitChars_ten_toDigits, Int.ofNat_eq_natCast]
    exact congrArg some (by omega)

/-- Behind the digits there is nothing or an exponent, no further digit. -/
theorem takeWhile_append_exponent (hw : ∀ c ∈ w, c.isDigit) (hr : exponent? r = some e) :
    (w ++ r).takeWhile Char.isDigit = w ∧ (w ++ r).dropWhile Char.isDigit = r := by
  have hrest : r.takeWhile Char.isDigit = [] ∧ r.dropWhile Char.isDigit = r := by
    unfold exponent? at hr
    split at hr
    · exact ⟨rfl, rfl⟩
    · exact ⟨rfl, rfl⟩
    · exact ⟨rfl, rfl⟩
    · cases hr
  rw [List.takeWhile_append_of_pos hw, List.dropWhile_append_of_pos hw, hrest.1, hrest.2,
    List.append_nil]
  exact ⟨rfl, rfl⟩

theorem unsigned?_whole (hw : Digits w) (hr : exponent? r = some e) :
    unsigned? (w ++ r) = some ⟨Nat.ofDigitChars 10 w 0, e⟩ := by
  obtain ⟨htake, hdrop⟩ := takeWhile_append_exponent hw.all hr
  have hfraction : fraction r = ([], r) := by
    unfold fraction
    split
    · cases hr
    · rfl
  simp only [unsigned?, htake, hdrop, hfraction]
  rw [if_neg hw.ne_nil, hr, List.append_nil]
  simp

theorem unsigned?_point (hw : Digits w) (hv : ∀ c ∈ v, c.isDigit) (hr : exponent? r = some e) :
    unsigned? (w ++ '.' :: (v ++ r)) =
      some ⟨Nat.ofDigitChars 10 (w ++ v) 0, e - v.length⟩ := by
  obtain ⟨htake, hdrop⟩ := takeWhile_append_exponent hv hr
  have hpoint : ('.' :: (v ++ r)).takeWhile Char.isDigit = [] ∧
      ('.' :: (v ++ r)).dropWhile Char.isDigit = '.' :: (v ++ r) := ⟨rfl, rfl⟩
  simp only [unsigned?, List.takeWhile_append_of_pos hw.all, List.dropWhile_append_of_pos hw.all,
    hpoint.1, hpoint.2, List.append_nil, fraction, htake, hdrop]
  rw [if_neg hw.ne_nil, hr]
  rfl

theorem read?_of_digits (hw : Digits w) (r : List Char) : read? (w ++ r) = unsigned? (w ++ r) := by
  unfold read?
  split
  · rename_i h
    exact absurd h (hw.head_ne r (by decide) _)
  · rfl

theorem read?_toString (i : Int) : read? (toString i).toList = some ⟨i, 0⟩ := by
  have hdigits : ∀ n, unsigned? (Nat.toDigits 10 n) = some ⟨n, 0⟩ := by
    intro n
    have h := unsigned?_whole (r := []) (.toDigits n) rfl
    rwa [List.append_nil, Nat.ofDigitChars_ten_toDigits] at h
  rcases toList_toString i with ⟨hi, h⟩ | ⟨hi, h⟩
  · have hread := read?_of_digits (.toDigits i.toNat) []
    rw [List.append_nil] at hread
    rw [h, hread, hdigits, Int.toNat_of_nonneg hi]
  · rw [h, read?, hdigits]
    exact congrArg some (by simp only [Numeral.mk.injEq, and_true]; omega)

/-- The text is an unsigned number: it begins with a digit, and nothing of it is left over. -/
def IsUnsigned (w : List Char) : Prop :=
  (∃ d v, w = d :: v ∧ d.isDigit) ∧ ∃ n, unsigned? w = some n

theorem IsUnsigned.of_append (hw : Digits w) {n : Numeral}
    (h : unsigned? (w ++ r) = some n) : IsUnsigned (w ++ r) := by
  refine ⟨?_, n, h⟩
  cases w with
  | nil => exact absurd rfl hw.ne_nil
  | cons d w => exact ⟨d, w ++ r, rfl, hw.all d List.mem_cons_self⟩

theorem IsUnsigned.spread (hw : Digits w) (keepsPoint : Bool) (point : Int) :
    IsUnsigned (Decimal.spread keepsPoint w point) := by
  have hend : exponent? [] = some 0 := rfl
  have hzero : Digits ['0'] := .singleton (by decide)
  unfold Decimal.spread
  split
  · have hdecimals : ∀ c ∈ Decimal.zeros (-point).toNat ++ w, c.isDigit := by
      intro c hc
      rcases List.mem_append.1 hc with hc | hc
      · exact isDigit_of_mem_zeros hc
      · exact hw.all c hc
    have h := unsigned?_point hzero hdecimals hend
    rw [List.append_nil] at h
    exact .of_append (r := '.' :: (Decimal.zeros (-point).toNat ++ w)) hzero h
  · split
    · have hwhole := hw.append fun c hc =>
        isDigit_of_mem_zeros (n := point.toNat - w.length) hc
      cases keepsPoint with
      | false => exact .of_append hwhole (unsigned?_whole hwhole hend)
      | true => exact .of_append hwhole (unsigned?_point hwhole hzero.all hend)
    · rename_i hpos hlen
      have hwhole : Digits (w.take point.toNat) := by
        refine ⟨fun h => ?_, fun c hc => hw.all c (List.mem_of_mem_take hc)⟩
        rcases List.take_eq_nil_iff.1 h with h | h
        · omega
        · exact hw.ne_nil h
      have hdecimals : ∀ c ∈ w.drop point.toNat, c.isDigit := fun c hc =>
        hw.all c (List.mem_of_mem_drop hc)
      have h := unsigned?_point hwhole hdecimals hend
      rw [List.append_nil] at h
      exact .of_append hwhole h

theorem IsUnsigned.scientific (hw : Digits w) (i : Int) :
    IsUnsigned (Decimal.scientific w i) := by
  have hend : exponent? ('e' :: (toString i).toList) = some i := integer?_toString i
  match w, hw with
  | [], hw => exact absurd rfl hw.ne_nil
  | [d], hw => exact .of_append hw (unsigned?_whole hw hend)
  | d :: d' :: v, hw =>
    have hfirst : Digits [d] := .singleton (hw.all d List.mem_cons_self)
    have hdecimals : ∀ c ∈ d' :: v, c.isDigit := fun c hc => hw.all c (List.mem_cons_of_mem d hc)
    exact .of_append (r := '.' :: (d' :: v ++ 'e' :: (toString i).toList)) hfirst
      (unsigned?_point hfirst hdecimals hend)

theorem IsUnsigned.magnitude (f : Decimal.Format) (x : Binary64) : IsUnsigned (f.magnitude x) := by
  have hdigits := Digits.toDigits (Decimal.shortest x).digits
  rw [Decimal.Format.magnitude]
  split
  · split
    · exact .scientific hdigits _
    · exact .spread hdigits _ _
  · exact .spread hdigits _ _

/-- A finite number is written so that it can be read. -/
theorem read?_write (f : Decimal.Format) {x : Binary64} (hx : x.isFinite) :
    ∃ n, read? (f.write x).toList = some n := by
  have hnan : x.isNaN = false := by simp [Binary64.isNaN, hx]
  obtain ⟨⟨d, v, hw, hd⟩, n, hn⟩ := IsUnsigned.magnitude f x
  simp only [Decimal.Format.write, hnan, hx, if_true, Bool.false_eq_true, if_false,
    String.toList_ofList]
  split
  · rw [read?, hn]
    exact ⟨_, rfl⟩
  · refine ⟨n, ?_⟩
    have hread := read?_of_digits (.singleton hd) v
    rw [hw] at hn ⊢
    exact hread.trans hn

end Numeral

end TableAlteration
