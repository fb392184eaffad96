import TableAlteration.Decimal.Written

namespace TableAlteration.Decimal

def numeric (c : Char) : Bool := c.isDigit || c ∈ ['-', '.', 'e']

/-- Some of the characters that numbers have, and no others. -/
structure Numeric (w : List Char) : Prop where
  ne_nil : w ≠ []
  all : w.all numeric

namespace Numeric

variable {w : List Char}

theorem toDigits (n : Nat) : Numeric (Nat.toDigits 10 n) := by
  refine ⟨Nat.toDigits_ne_nil, ?_⟩
  rw [List.all_eq_true]
  intro c hc
  simp [numeric, Nat.isDigit_of_mem_toDigits (by decide) (by decide) hc]

theorem cons {c : Char} (hc : numeric c) (h : Numeric w) : Numeric (c :: w) :=
  ⟨List.cons_ne_nil _ _, by simp [hc, h.all]⟩

theorem toString_int (i : Int) : Numeric (toString i).toList := by
  rw [Int.toString_eq_repr, Int.repr_eq_if]
  split
  · simpa using toDigits i.toNat
  · simpa using (toDigits (-i).toNat).cons (c := '-') (by decide)

theorem all_zeros (n : Nat) : (zeros n).all numeric := by
  rw [zeros, List.all_replicate]
  split
  · rfl
  · decide

theorem spread (h : Numeric w) (keepsPoint : Bool) (point : Int) :
    Numeric (spread keepsPoint w point) := by
  obtain ⟨hne, hw⟩ := h
  rw [Decimal.spread]
  split
  · refine ⟨by simp, ?_⟩
    simp only [List.cons_append, List.all_cons, List.all_append, all_zeros, hw]
    decide
  · split
    · refine ⟨by simp [hne], ?_⟩
      simp only [List.all_append, all_zeros, hw]
      cases keepsPoint <;> decide
    · refine ⟨by simp, ?_⟩
      rw [← List.take_append_drop point.toNat w, List.all_append, Bool.and_eq_true] at hw
      simp only [List.all_append, List.all_cons, hw.1, hw.2]
      decide

theorem scientific (h : Numeric w) (exponent : Int) : Numeric (scientific w exponent) := by
  have hexponent := (toString_int exponent).all
  refine ⟨by simp [Decimal.scientific], ?_⟩
  have hpoint : numeric '.' := by decide
  have hmark : numeric 'e' := by decide
  simp only [Decimal.scientific, List.all_append, List.all_cons, hmark, hexponent, Bool.and_true]
  match w, h.all with
  | [], hw => exact hw
  | [_], hw => exact hw
  | _ :: _ :: _, hw =>
    simp only [List.all_cons, hpoint, Bool.true_and] at hw ⊢
    exact hw

theorem magnitude (f : Format) (x : Binary64) : Numeric (f.magnitude x) := by
  have hdigits := toDigits (shortest x).digits
  rw [Format.magnitude]
  split
  · split
    · exact hdigits.scientific _
    · exact hdigits.spread _ _
  · exact hdigits.spread _ _

theorem write (f : Format) {x : Binary64} (hx : x.isFinite) : Numeric (f.write x).toList := by
  have hnan : x.isNaN = false := by simp [Binary64.isNaN, hx]
  simp only [Format.write, hnan, hx, if_true, Bool.false_eq_true, if_false, String.toList_ofList]
  split
  · exact (magnitude f x).cons (by decide)
  · exact magnitude f x

end Numeric

end TableAlteration.Decimal
