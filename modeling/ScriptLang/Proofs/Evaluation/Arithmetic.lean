import Mathlib.Algebra.Group.Nat.Defs
import ScriptLang.Proofs.Evaluation.Stopping
import ScriptLang.Proofs.Typing.Operator

/-!
# Arithmetic on words

Sums, differences and products are the exact ones cut off to 64 bits. A quotient is rounded
towards zero and its remainder is exact, the quotient of the least integer by -1 being the
only one that does not fit. Operators stop an evaluation on an integer divided by zero and
on nothing else; otherwise all they change is to report at most one problem.
-/

namespace ScriptLang

namespace Arithmetic

/-- The result in the integers. -/
def exact : Arithmetic → Int → Int → Int
  | add => (· + ·)
  | subtract => (· - ·)
  | multiply => (· * ·)
  | divide => Int.tdiv
  | modulo => Int.tmod

/-- What the division of an integer by zero is reported as. -/
def divisorFault? : Arithmetic → Option Cause
  | divide => some .divisionByZero
  | modulo => some .moduloByZero
  | _ => none

/-- Where no zero divides, the result is the exact one cut off to 64 bits. -/
theorem onIntegers_exact (operator : Arithmetic) (l : Int64) {r : Int64}
    (h : operator.divisorFault? ≠ none → r ≠ 0) :
    ∃ n : Int64, n.toInt = (operator.exact l.toInt r.toInt).bmod (2 ^ 64) ∧
      operator.onIntegers l r = .value (.integer n) := by
  cases operator with
  | add => exact ⟨l + r, Int64.toInt_add l r, rfl⟩
  | subtract => exact ⟨l - r, Int64.toInt_sub l r, rfl⟩
  | multiply => exact ⟨l * r, Int64.toInt_mul l r, rfl⟩
  | divide => exact ⟨l / r, Int64.toInt_div l r, if_neg (h nofun)⟩
  | modulo =>
    have hr := Int64.toInt_mod l r
    refine ⟨l % r, ?_, if_neg (h nofun)⟩
    rw [exact, ← hr]
    exact (Int64.toInt_bmod _).symm

theorem onIntegers_eq_failed_iff {operator : Arithmetic} {l r : Int64} {cause : Cause} :
    operator.onIntegers l r = .failed cause ↔
      (if r = 0 then operator.divisorFault? else none) = some cause := by
  cases operator with
  | divide => by_cases h : r = 0 <;> simp [onIntegers, divisorFault?, h]
  | modulo => by_cases h : r = 0 <;> simp [onIntegers, divisorFault?, h]
  | _ => simp [onIntegers, divisorFault?]

end Arithmetic

/-- A division that is rounded towards zero: its remainder is exact, and its quotient is cut
off to 64 bits. -/
structure Truncates (a b q r : Int64) : Prop where
  quotient : q.toInt = (a.toInt.tdiv b.toInt).bmod (2 ^ 64)
  remainder : r.toInt = a.toInt - b.toInt * a.toInt.tdiv b.toInt
  lt_divisor : r.toInt.natAbs < b.toInt.natAbs
  sign : r = 0 ∨ r.toInt.sign = a.toInt.sign
  identity : (q.toInt * b.toInt + r.toInt).bmod (2 ^ 64) = a.toInt

theorem truncates_div_mod (a : Int64) {b : Int64} (h : b ≠ 0) :
    Truncates a b (a / b) (a % b) := by
  have hq := Int64.toInt_div a b
  have hr := (Int64.toInt_mod a b).trans (Int.tmod_def a.toInt b.toInt)
  have hb : b.toInt ≠ 0 := fun hb => h (Int64.toInt_inj.mp hb)
  refine ⟨hq, hr, ?_, ?_, ?_⟩
  · rw [Int64.toInt_mod, Int.natAbs_tmod]
    exact Nat.mod_lt _ (Int.natAbs_pos.mpr hb)
  · have hsign := Int.sign_tmod a.toInt b.toInt
    rw [← Int64.toInt_mod] at hsign
    split at hsign
    · exact .inl (Int64.toInt_inj.mp (Int.sign_eq_zero_iff_zero.mp hsign))
    · exact .inr hsign
  · -- Cutting the quotient off does not change the residue of the product.
    have hsum : a.toInt.tdiv b.toInt * b.toInt + (a % b).toInt = a.toInt := by
      rw [hr, Int.mul_comm]
      omega
    rw [hq, ← Int.bmod_add_bmod, Int.bmod_mul_bmod, Int.bmod_add_bmod, hsum]
    exact Int64.toInt_bmod a

namespace BinaryOperator

/-- What stops an operator: an integer is divided by zero. -/
def failure? : BinaryOperator → Value → Value → Option Cause
  | .arithmetic operator, .integer _, .integer r => if r = 0 then operator.divisorFault? else none
  | _, _, _ => none

variable {operator : BinaryOperator} {left right : Value} {cause : Cause}

theorem apply_integers (operator : Arithmetic) (a b : Int64) :
    apply (.arithmetic operator) (.integer a) (.integer b) = operator.onIntegers a b := by
  cases operator <;> rfl

theorem apply_eq_failed_iff :
    operator.apply left right = .failed cause ↔ operator.failure? left right = some cause := by
  constructor
  · intro h
    cases operator with
    | comparison operator => exact absurd h Comparison.apply_ne_failed
    | logical operator => cases operator <;> cases h
    | arithmetic operator =>
      have hnumbers : operator.onNumbers left right = .failed cause := by
        simp only [apply, Arithmetic.apply] at h
        split at h
        · cases h
        · cases h
        · exact h
      unfold Arithmetic.onNumbers at hnumbers
      split at hnumbers
      · next l r => exact Arithmetic.onIntegers_eq_failed_iff.mp hnumbers
      · split at hnumbers <;> cases hnumbers
  · intro h
    unfold failure? at h
    split at h
    · next operator l r =>
      rw [apply_integers]
      exact Arithmetic.onIntegers_eq_failed_iff.mpr h
    · cases h

end BinaryOperator

namespace Eval

variable {s : Evaluation}

/-- An outcome that is no failure is settled with what its operands are objected to. -/
theorem settle_of_follows {o : Outcome} {objection : Option Cause} {type : ValueType}
    (ho : o.Follows objection type) (position : Position) (h : ∀ cause, o ≠ .failed cause) :
    ∃ v, v.type = type ∧ settle position o s =
      .ok v { s with diagnostics := s.diagnostics ++ faultsAt objection position } := by
  cases o with
  | value v =>
    obtain ⟨rfl, ht⟩ := ho
    refine ⟨v, ht, ?_⟩
    rw [faultsAt_none, List.append_nil]
    rfl
  | reported cause v =>
    obtain ⟨rfl, ht⟩ := ho
    exact ⟨v, ht, rfl⟩
  | failed cause => exact absurd rfl (h cause)

theorem settle_integers (operator : Arithmetic) (position : Position) (a : Int64) {b : Int64}
    (h : operator.divisorFault? ≠ none → b ≠ 0) :
    ∃ n : Int64, n.toInt = (operator.exact a.toInt b.toInt).bmod (2 ^ 64) ∧
      settle position (BinaryOperator.apply (.arithmetic operator) (.integer a) (.integer b)) s =
        .ok (.integer n) s := by
  obtain ⟨n, hn, hvalue⟩ := operator.onIntegers_exact a h
  refine ⟨n, hn, ?_⟩
  rw [BinaryOperator.apply_integers, hvalue]
  rfl

theorem settle_integers_failed {operator : Arithmetic} {cause : Cause}
    (h : operator.divisorFault? = some cause) (position : Position) (a b : Int64) :
    settle position (BinaryOperator.apply (.arithmetic operator) (.integer a) (.integer b)) s =
      .error (.fault ⟨cause, position⟩) s ↔ b = 0 := by
  constructor
  · intro hfail
    refine Classical.byContradiction fun hb => ?_
    obtain ⟨n, -, hn⟩ := settle_integers (s := s) operator position a fun _ => hb
    cases hn.symm.trans hfail
  · intro hb
    have hfail : operator.onIntegers a b = .failed cause :=
      Arithmetic.onIntegers_eq_failed_iff.mpr ((if_pos hb).trans h)
    rw [BinaryOperator.apply_integers, hfail]
    rfl

/-- Operators on integers are exact up to the 64 bits of a result, a division fails on zero and
nowhere else, and no other operator on any operands fails or does more than report a problem. -/
theorem settle_binary (position : Position) (s : Evaluation) :
    (∀ a b : Int64,
      (∀ operator ∈ [Arithmetic.add, .subtract, .multiply], ∃ n : Int64,
        n.toInt = (operator.exact a.toInt b.toInt).bmod (2 ^ 64) ∧
        settle position (BinaryOperator.apply (.arithmetic operator) (.integer a) (.integer b)) s =
          .ok (.integer n) s) ∧
      (settle position (BinaryOperator.apply (.arithmetic .divide) (.integer a) (.integer b)) s =
        .error (.fault ⟨.divisionByZero, position⟩) s ↔ b = 0) ∧
      (settle position (BinaryOperator.apply (.arithmetic .modulo) (.integer a) (.integer b)) s =
        .error (.fault ⟨.moduloByZero, position⟩) s ↔ b = 0) ∧
      (b ≠ 0 → ∃ q r, Truncates a b q r ∧
        settle position (BinaryOperator.apply (.arithmetic .divide) (.integer a) (.integer b)) s =
          .ok (.integer q) s ∧
        settle position (BinaryOperator.apply (.arithmetic .modulo) (.integer a) (.integer b)) s =
          .ok (.integer r) s)) ∧
    ∀ (operator : BinaryOperator) (left right : Value), operator.failure? left right = none →
      ∃ value problems, problems.length ≤ 1 ∧ settle position (operator.apply left right) s =
        .ok value { s with diagnostics := s.diagnostics ++ problems } := by
  refine ⟨fun a b => ⟨fun operator ho => settle_integers operator position a fun h => ?_,
    settle_integers_failed rfl position a b, settle_integers_failed rfl position a b,
    fun hb => ⟨a / b, a % b, truncates_div_mod a hb, ?_, ?_⟩⟩, fun operator left right h => ?_⟩
  · simp only [List.mem_cons, List.not_mem_nil, or_false] at ho
    obtain rfl | rfl | rfl := ho <;> exact absurd rfl h
  · rw [BinaryOperator.apply_integers, Arithmetic.onIntegers, if_neg hb]
    rfl
  · rw [BinaryOperator.apply_integers, Arithmetic.onIntegers, if_neg hb]
    rfl
  · have hfollows := operator.apply_follows left right
    have hne : ∀ cause, operator.apply left right ≠ .failed cause := fun cause hc => by
      rw [BinaryOperator.apply_eq_failed_iff.mp hc] at h
      cases h
    obtain ⟨v, -, hv⟩ := settle_of_follows (s := s) hfollows position hne
    refine ⟨v, _, ?_, hv⟩
    rw [faultsAt, List.length_map]
    exact Option.length_toList_le

/-- The one quotient that does not fit, and an operand that cannot be compared. -/
theorem settle_binary_min :
    (∃ q r, Truncates Int64.minValue (-1) q r ∧ q = Int64.minValue ∧ r = 0) ∧
    ∃ value problems, problems.length ≤ 1 ∧
      settle ⟨0, "f"⟩ (BinaryOperator.apply (.comparison .less) (.string "a") (.integer 0)) .new =
        .ok value { Evaluation.new with diagnostics := problems } := by
  obtain ⟨hintegers, hother⟩ := settle_binary ⟨0, "f"⟩ .new
  refine ⟨?_, hother _ _ _ rfl⟩
  obtain ⟨-, -, -, hdivision⟩ := hintegers Int64.minValue (-1)
  obtain ⟨q, r, h, hq, hr⟩ := hdivision (by decide)
  have hq : q.toInt = Int64.minValue.toInt := h.quotient.trans (by decide)
  have hr : r.toInt = (0 : Int64).toInt := h.remainder.trans (by decide)
  exact ⟨q, r, h, Int64.toInt_inj.mp hq, Int64.toInt_inj.mp hr⟩

end Eval

end ScriptLang
