import ScriptLang.Number.Reading

/-!
# Integers read back from their digits
-/

namespace ScriptLang.Number

theorem digits?_toDigits (n : Nat) : digits? (Nat.toDigits 10 n) = some n := by
  have hd : (Nat.toDigits 10 n).all Char.isDigit = true :=
    List.all_eq_true.mpr fun _ => Nat.isDigit_of_mem_toDigits (by decide) (by decide)
  have hne : (Nat.toDigits 10 n).isEmpty = false := by simp [Nat.toDigits_ne_nil]
  unfold digits?
  rw [hd, hne]
  exact congrArg some Nat.ofDigitChars_ten_toDigits

/-- Digits have no sign. -/
theorem signed_of_digits {cs : List Char} (h : ∀ c ∈ cs, c.isDigit) : signed cs = (false, cs) := by
  unfold signed
  split
  · exact absurd (h _ List.mem_cons_self) (by decide)
  · exact absurd (h _ List.mem_cons_self) (by decide)
  · rfl

/-- Decimal digits of an integer that is not negative are read as that integer. -/
theorem integer?_toString {n : Int64} (h : 0 ≤ n) :
    integer? (toString n.toInt).toList = some n := by
  have hn : 0 ≤ n.toInt := Int64.le_iff_toInt_le.mp h
  obtain ⟨k, hk⟩ := Int.eq_ofNat_of_zero_le hn
  have hlt : (k : Int) ≤ Int64.maxValue.toInt := by
    have : Int64.maxValue.toInt = 2 ^ 63 - 1 := rfl
    have := n.toInt_lt
    omega
  have hs : (toString n.toInt).toList = Nat.toDigits 10 k := by
    rw [hk]
    exact Nat.toList_repr
  have hd : ∀ c ∈ Nat.toDigits 10 k, c.isDigit := fun _ =>
    Nat.isDigit_of_mem_toDigits (by decide) (by decide)
  rw [hs, integer?, signed_of_digits hd]
  simp only [digits?_toDigits, Option.bind_some, Bool.false_eq_true, if_false, hlt, if_true]
  rw [← hk, Int64.ofInt_toInt]

end ScriptLang.Number
