namespace TableAlteration.Text

/-- Only `A` to `Z` change; all other characters, accented letters included, stay as they are. -/
def fold (s : String) : String :=
  String.ofList (s.toList.map Char.toLower)

/-- Names are compared ignoring the case of ASCII letters. -/
def sameName (a b : String) : Bool := fold a == fold b

theorem sameName_iff {a b : String} : sameName a b = true ↔ fold a = fold b := by
  simp [sameName]

theorem sameName_eq_false_iff {a b : String} : sameName a b = false ↔ fold a ≠ fold b := by
  rw [Bool.eq_false_iff, Ne, sameName_iff]

@[simp] theorem sameName_refl (a : String) : sameName a a = true := by simp [sameName]

theorem sameName_comm (a b : String) : sameName a b = sameName b a := by
  simp [sameName, Bool.beq_comm (a := fold a)]

theorem sameName_trans {a b c : String} (h : sameName a b) (k : sameName b c) : sameName a c := by
  rw [sameName_iff] at *
  exact h.trans k

private theorem toLower_toLower (c : Char) : c.toLower.toLower = c.toLower := by
  unfold Char.toLower
  split
  · split
    · rename_i h k
      have : ('A'.val.toNat = 65) ∧ ('Z'.val.toNat = 90) ∧ (('a'.val - 'A'.val).toNat = 32) := by
        decide
      simp only [UInt32.le_iff_toNat_le, UInt32.toNat_add, ge_iff_le] at h k
      omega
    · rfl
  · rfl

@[simp] theorem fold_fold (s : String) : fold (fold s) = fold s := by
  unfold fold
  rw [String.toList_ofList, List.map_map]
  exact congrArg _ (List.map_congr_left fun c _ => toLower_toLower c)

theorem fold_append (a b : String) : fold (a ++ b) = fold a ++ fold b := by
  unfold fold
  rw [String.toList_append, List.map_append, String.ofList_append]

/-- Whether `s` begins with `start`, character by character. -/
def startsWith (start s : String) : Bool := start.toList.isPrefixOf s.toList

end TableAlteration.Text
