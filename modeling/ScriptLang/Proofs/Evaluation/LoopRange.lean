import Mathlib.Algebra.Group.Int.Defs
import ScriptLang.Evaluation.Loop

/-!
# The numbers of a loop

The laps of a `for` are counted from its bounds. Lap by lap, this is a test against the end
and a step that may leave the 64 bits: such a step is past any end, so it comes last.
-/

namespace ScriptLang

/-- The integers of 64 bits. -/
def Fits64 (v : Int) : Prop := -2 ^ 63 ≤ v ∧ v < 2 ^ 63

instance (v : Int) : Decidable (Fits64 v) := inferInstanceAs (Decidable (_ ∧ _))

theorem fits64_toInt (n : Int64) : Fits64 n.toInt := ⟨n.le_toInt, n.toInt_lt⟩

namespace LoopRange

variable {r : LoopRange} {n : Int64} {k : Nat} {v : Int}

/-- The number that is one step behind another, in the integers. -/
def stepped (r : LoopRange) (v : Int) : Int :=
  if r.descending then v - r.step.toInt else v + r.step.toInt

/-- The number that is `k` steps behind another, in the integers. -/
def valueFrom (r : LoopRange) (v : Int) (k : Nat) : Int :=
  if r.descending then v - k * r.step.toInt else v + k * r.step.toInt

/-- The number `k` steps behind the start. -/
def valueAt (r : LoopRange) (k : Nat) : Int := r.valueFrom r.start.toInt k

/-- The number of a lap, computed in 64 bits. -/
def numberFrom (r : LoopRange) : Int64 → Nat → Int64
  | n, 0 => n
  | n, k + 1 => r.numberFrom (r.next n) k

/-- Whether a number is on the right side of the end. -/
def Admits (r : LoopRange) (v : Int) : Prop :=
  match r.descending, r.excludesStop with
  | false, false => v ≤ r.stop.toInt
  | false, true => v < r.stop.toInt
  | true, false => v ≥ r.stop.toInt
  | true, true => v > r.stop.toInt

instance (r : LoopRange) (v : Int) : Decidable (r.Admits v) := by
  unfold Admits
  split <;> infer_instance

/-- What is left of a range once `n` is reached. -/
def startingAt (r : LoopRange) (n : Int64) : LoopRange := { r with start := n }

@[simp] theorem startingAt_start (r : LoopRange) : r.startingAt r.start = r := rfl

theorem valueFrom_zero (r : LoopRange) (v : Int) : r.valueFrom v 0 = v := by
  simp [valueFrom]

theorem valueFrom_succ (r : LoopRange) (v : Int) (k : Nat) :
    r.valueFrom v (k + 1) = r.valueFrom (r.stepped v) k := by
  unfold valueFrom stepped
  have hk : ((k + 1 : Nat) : Int) * r.step.toInt = r.step.toInt + k * r.step.toInt := by
    rw [Int.natCast_add, Int.add_mul]
    omega
  split <;> omega

/-- Where the integers step within 64 bits, so does the loop. -/
theorem toInt_next (h : Fits64 (r.stepped n.toInt)) : (r.next n).toInt = r.stepped n.toInt := by
  obtain ⟨hlow, hhigh⟩ := h
  unfold next
  unfold stepped at hlow hhigh ⊢
  by_cases hd : r.descending = true
  · rw [if_pos hd] at hlow hhigh ⊢
    rw [if_pos hd, Int64.toInt_sub, Int.bmod_eq_of_le (by omega) (by omega)]
  · rw [if_neg hd] at hlow hhigh ⊢
    rw [if_neg hd, Int64.toInt_add, Int.bmod_eq_of_le (by omega) (by omega)]

/-- A number is on the right side of the end if there is no way back to it. -/
theorem admits_iff : r.Admits v ↔ 0 ≤ (if r.descending then v - r.stop.toInt
    else r.stop.toInt - v) - (if r.excludesStop then 1 else 0) := by
  unfold Admits
  cases r.descending <;> cases r.excludesStop <;> simp <;> omega

section

variable (hs : 0 < r.step.toInt)

include hs

/-- The laps are as many as there are numbers on the right side of the end. -/
theorem lt_count_iff : k < r.count ↔ r.Admits (r.valueAt k) := by
  have hd : r.Admits (r.valueAt k) ↔ k * r.step.toInt ≤ r.distance := by
    rw [admits_iff, valueAt, valueFrom, distance]
    cases r.descending <;> simp <;> omega
  rw [hd, count]
  have hk : 0 ≤ k * r.step.toInt := Int.mul_nonneg (Int.natCast_nonneg k) (Int.le_of_lt hs)
  by_cases hpos : 0 ≤ r.distance
  · rw [if_pos hpos, ← Int.le_ediv_iff_mul_le hs]
    have hquotient := Int.ediv_nonneg hpos (Int.le_of_lt hs)
    omega
  · rw [if_neg hpos]
    omega

/-- A step out of the 64 bits is past the end. -/
theorem not_admits_of_not_fits64 (h : ¬ Fits64 (r.stepped n.toInt)) :
    ¬ r.Admits (r.stepped n.toInt) := by
  have hstop := fits64_toInt r.stop
  have hn := fits64_toInt n
  unfold Fits64 at h hstop hn
  rw [admits_iff]
  unfold stepped at h ⊢
  by_cases hd : r.descending = true
  · rw [if_pos hd] at h ⊢
    rw [if_pos hd]
    split <;> omega
  · rw [if_neg hd] at h ⊢
    rw [if_neg hd]
    split <;> omega

/-- The number at hand is tested before each lap, and a step of it that leaves the 64 bits ends
the loop: what is counted is a loop that does so. -/
theorem count_startingAt (n : Int64) : (r.startingAt n).count =
    if r.Admits n.toInt then
      if Fits64 (r.stepped n.toInt) then (r.startingAt (r.next n)).count + 1 else 1
    else 0 := by
  have hlt : ∀ (m : Int64) (k : Nat),
      k < (r.startingAt m).count ↔ r.Admits (r.valueFrom m.toInt k) := fun m k =>
    lt_count_iff (r := r.startingAt m) hs
  have hzero : 0 < (r.startingAt n).count ↔ r.Admits n.toInt := by
    rw [hlt, valueFrom_zero]
  by_cases hadmits : r.Admits n.toInt
  · rw [if_pos hadmits]
    have hpos := hzero.mpr hadmits
    by_cases hfits : Fits64 (r.stepped n.toInt)
    · rw [if_pos hfits]
      have hsucc : ∀ k, k + 1 < (r.startingAt n).count ↔ k < (r.startingAt (r.next n)).count := by
        intro k
        rw [hlt, hlt, valueFrom_succ, toInt_next hfits]
      have hle := hsucc (r.startingAt (r.next n)).count
      have hge := hsucc ((r.startingAt n).count - 1)
      omega
    · rw [if_neg hfits]
      have hone := not_admits_of_not_fits64 hs hfits
      rw [← valueFrom_zero r (r.stepped n.toInt), ← valueFrom_succ, ← hlt] at hone
      omega
  · rw [if_neg hadmits]
    have hnot := (not_congr hzero).mpr hadmits
    omega

/-- While laps are left, the numbers computed in 64 bits are those in the integers. -/
theorem toInt_numberFrom {n : Int64} {k : Nat} (hk : k < (r.startingAt n).count) :
    (r.numberFrom n k).toInt = r.valueFrom n.toInt k := by
  induction k generalizing n with
  | zero => exact (valueFrom_zero r n.toInt).symm
  | succ k ih =>
    rw [count_startingAt hs] at hk
    split at hk
    · split at hk
      · next hfits =>
        rw [numberFrom, ih (by omega), toInt_next hfits, valueFrom_succ]
      · omega
    · omega

end

end LoopRange

end ScriptLang
