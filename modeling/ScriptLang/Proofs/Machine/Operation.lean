import ScriptLang.Codegen.Generator
import ScriptLang.Proofs.Machine.Run
import ScriptLang.Value.Operation

/-!
# Code for operators on words

Integers and truth values are words. The code for an operator on them leaves the word
of the operator's value in `%rax`, or goes where the fault it fails with is raised.
-/

namespace ScriptLang

open Assembly Assembly.Machine

/-! ## Words -/

def truthWord (b : Bool) : BitVec 64 := if b then 1 else 0

/-- The word that stands for a value; integers and truth values have one. -/
def Value.word? : Value → Option (BitVec 64)
  | integer n => some n.toBitVec
  | boolean b => some (truthWord b)
  | _ => none

/-- The values of the type are words. -/
def ValueType.IsWord (t : ValueType) : Prop := t = .integer ∨ t = .boolean

theorem Value.isWord_of_word? {v : Value} {w : BitVec 64} (h : v.word? = some w) :
    v.type.IsWord := by
  cases v with
  | integer n => exact .inl rfl
  | boolean b => exact .inr rfl
  | _ => cases h

theorem Value.isTruthy_of_word? {v : Value} {w : BitVec 64} (h : v.word? = some w) :
    v.isTruthy = (w != 0) := by
  cases v with
  | integer n =>
    cases h
    rw [isTruthy, Bool.eq_iff_iff, bne_iff_ne, bne_iff_ne, ne_eq, ne_eq, ← Int64.toBitVec_inj]
    rfl
  | boolean b =>
    cases h
    cases b <;> rfl
  | _ => cases h

/-- Where the trap of a fault in arithmetic is. -/
def Cause.trap? : Cause → Option Trap
  | .divisionByZero => some .divisionByZero
  | .moduloByZero => some .moduloByZero
  | _ => none

/-! ## Slots -/

/-- The address of a slot, relative to the frame pointer or where the linker put it. -/
def Slot.address (L : Layout) (base : BitVec 64) (s : Slot) : BitVec 64 :=
  match s.location with
  | .frame offset => base + BitVec.ofInt 64 offset
  | .cell name => L (.cell name)

namespace Assembly.Machine

variable {L : Layout} {m : Machine} {slot : Slot} {r q : Register} {w : BitVec 64}

theorem address_low : m.address L slot.low = some (slot.address L (m.registers .rbp)) := by
  obtain ⟨location, type, mutable⟩ := slot
  cases location with
  | frame offset =>
    change some (_ + BitVec.ofInt 64 (offset + (0 : Nat))) = _
    rw [Int.natCast_zero, Int.add_zero]
    rfl
  | cell name =>
    change some (_ + BitVec.ofNat 64 0) = _
    rw [BitVec.add_zero]
    rfl

@[simp] theorem effect_load : m.effect L (.move (.memory slot.low) (.register r)) =
    some (m.set r (m.load (slot.address L (m.registers .rbp)))) := by
  change (Option.map m.load (m.address L slot.low)).bind _ = _
  rw [address_low]
  rfl

@[simp] theorem effect_store : m.effect L (.move (.register r) (.memory slot.low)) =
    some (m.store (slot.address L (m.registers .rbp)) (m.registers r)) := by
  change (Option.map _ (m.address L slot.low)) = _
  rw [address_low]
  rfl

@[simp] theorem effect_move : m.effect L (.move (.register q) (.register r)) =
    some (m.set r (m.registers q)) := rfl

@[simp] theorem effects_nil : m.effects L [] = some m := rfl

@[simp] theorem effects_cons (i : Instruction) (rest : List Instruction) :
    m.effects L (i :: rest) = (m.effect L i).bind (effects L rest) := rfl

theorem effects_append (first second : List Instruction) :
    m.effects L (first ++ second) = (m.effects L first).bind (effects L second) := by
  induction first generalizing m with
  | nil => rfl
  | cons i rest ih =>
    rw [List.cons_append, effects_cons, effects_cons]
    cases m.effect L i with
    | none => rfl
    | some m' => exact ih

@[simp] theorem set_set (v : BitVec 64) : (m.set r w).set r v = m.set r v := by
  have hr : ((m.set r w).set r v).registers = (m.set r v).registers := by
    funext q
    rw [registers_set, registers_set, registers_set]
    by_cases h : q = r
    · rw [if_pos h, if_pos h]
    · rw [if_neg h, if_neg h, if_neg h]
  exact congrArg (Machine.mk · m.flags m.memory) hr

@[simp] theorem effects_loadCode (h : slot.type.IsWord) : m.effects L slot.loadCode =
    some (m.set .rax (m.load (slot.address L (m.registers .rbp)))) := by
  have hc : slot.loadCode = [.move (.memory slot.low) (.register .rax)] := by
    rcases h with h | h <;> rw [Slot.loadCode, h]
  rw [hc, effects_cons, effect_load]
  rfl

@[simp] theorem effects_storeCode (h : slot.type.IsWord) : m.effects L slot.storeCode =
    some (m.store (slot.address L (m.registers .rbp)) (m.registers .rax)) := by
  have hc : slot.storeCode = [.move (.register .rax) (.memory slot.low)] := by
    rcases h with h | h <;> rw [Slot.storeCode, h]
  rw [hc, effects_cons, effect_store]
  rfl

/-- A condition as a word: the byte that is set, extended. -/
theorem effects_condition {c : Condition} {b : Bool} (h : m.flags.holds? c = some b) :
    m.effects L [.set c r, .extendByte r r] = some (m.set r (truthWord b)) := by
  have hs : m.effect L (.set c r) =
      some (m.set r ((m.registers r).extractLsb' 8 56 ++ (BitVec.ofBool b).setWidth 8)) := by
    change (m.flags.holds? c).map _ = _
    rw [h]
    rfl
  have he : ∀ x : BitVec 56, ((x ++ (BitVec.ofBool b).setWidth 8).setWidth 8).setWidth 64 =
      truthWord b := by
    intro x
    rw [BitVec.setWidth_append_eq_right]
    cases b <;> rfl
  rw [effects_cons, hs, Option.bind_some, effects_cons]
  change some ((m.set r _).set r _) = _
  rw [set_set, registers_set, if_pos rfl, he]

@[simp] theorem effects_truthCode {t : ValueType} (h : t.IsWord) : m.effects L t.truthCode =
    some ((m.setFlags (.describe (m.registers .rax) false)).set .rax
      (truthWord (m.registers .rax != 0))) := by
  have hc : t.truthCode = [.test .rax, .set .ne .rax, .extendByte .rax .rax] := by
    rcases h with rfl | rfl <;> rfl
  rw [hc]
  change (m.setFlags (.describe (m.registers .rax) false)).effects L
    [.set .ne .rax, .extendByte .rax .rax] = _
  exact effects_condition (b := m.registers .rax != 0) rfl

/-- Memory and the frame pointer are the same. -/
structure Keeps (m m' : Machine) : Prop where
  memory : m'.memory = m.memory
  base : m'.registers .rbp = m.registers .rbp

theorem Keeps.trans {m' m'' : Machine} (h : m.Keeps m') (h' : m'.Keeps m'') : m.Keeps m'' :=
  ⟨h'.memory.trans h.memory, h'.base.trans h.base⟩

theorem Keeps.load {m' : Machine} (h : m.Keeps m') (a : BitVec 64) : m'.load a = m.load a :=
  load_congr fun x _ => congrFun h.memory x

end Assembly.Machine

/-- The right operand, which is the result, is moved aside for the left one. -/
theorem Assembly.Machine.effects_operands {L : Layout} {m : Machine} {left : Slot}
    (h : left.type.IsWord) :
    m.effects L ([.move (.register .rax) (.register .rcx)] ++ left.loadCode) =
      some ((m.set .rcx (m.registers .rax)).set .rax
        (m.load (left.address L (m.registers .rbp)))) := by
  rw [effects_append, effects_cons, effect_move, Option.bind_some, effects_nil,
    Option.bind_some, effects_loadCode h]
  rfl

/-! ## Comparisons and connectives -/

/-- The code leaves the word of the outcome's value in `%rax`, or jumps to the trap of
its fault; memory stays as it is. -/
def Realizes (L : Layout) (code : List Instruction) (m : Machine) : Outcome → Prop
  | .value v | .reported _ v =>
    ∃ m', Finishes L code m m' ∧ v.word? = some (m'.registers .rax) ∧ m.Keeps m'
  | .failed cause =>
    ∃ trap m', cause.trap? = some trap ∧ Leaves L code m (.trap trap) m' ∧ m.Keeps m'

namespace Realizes

variable {L : Layout} {code first second : List Instruction} {m m' : Machine} {v : Value}
  {o : Outcome}

theorem of_effects (h : m.effects L code = some m') (hv : v.word? = some (m'.registers .rax))
    (hk : m.Keeps m') : Realizes L code m (.value v) :=
  ⟨m', .of_effects h, hv, hk⟩

/-- Code that moves operands may come first. -/
theorem after (h : m.effects L first = some m') (hk : m.Keeps m')
    (ho : Realizes L second m' o) : Realizes L (first ++ second) m o := by
  have hlabels : ∀ l, .label l ∈ second → .label l ∉ first := fun _ _ =>
    label_notMem_of_effects h
  cases o with
  | value v | reported cause v =>
    obtain ⟨m'', hrun, hv, hk'⟩ := ho
    exact ⟨m'', (Finishes.of_effects h).append hrun hlabels, hv, hk.trans hk'⟩
  | failed cause =>
    obtain ⟨trap, m'', ht, hrun, hk'⟩ := ho
    exact ⟨trap, m'', ht, (Finishes.of_effects h).leaves hrun hlabels (label_notMem_of_effects h),
      hk.trans hk'⟩

end Realizes

namespace Comparison

/-- The comparison of words with a sign. -/
def onWords (operator : Comparison) (x y : BitVec 64) : Bool :=
  match operator with
  | less => x.slt y
  | lessEquals => x.sle y
  | greater => y.slt x
  | greaterEquals => y.sle x
  | equals => x == y
  | notEquals => x != y

/-- A difference has the other sign exactly if it overflows. -/
theorem sign_of_difference (x y : BitVec 64) :
    ((x - y).msb != x.ssubOverflow y) = x.slt y := by
  have hx := BitVec.toInt_lt (x := x)
  have hx' := BitVec.le_toInt x
  have hy := BitVec.toInt_lt (x := y)
  have hy' := BitVec.le_toInt y
  rw [BitVec.msb_eq_toInt, BitVec.toInt_sub, BitVec.ssubOverflow, BitVec.slt]
  simp only [Int.bmod_def]
  grind

theorem zero_of_difference (x y : BitVec 64) : (x - y == 0) = (x == y) := by
  rw [Bool.eq_iff_iff, beq_iff_eq, beq_iff_eq]
  constructor
  · intro h
    rw [← BitVec.sub_add_cancel x y, h]
    exact BitVec.zero_add y
  · rintro rfl
    exact BitVec.sub_self x

/-- The condition of a comparison holds of the flags a subtraction leaves. -/
theorem holds?_condition (operator : Comparison) (x y : BitVec 64) :
    (IntegerOp.subtract.apply x y).2.holds? operator.condition =
      some (operator.onWords x y) := by
  have hs := sign_of_difference x y
  have hz := zero_of_difference x y
  have hle : x.sle y = (x == y || x.slt y) := by
    rw [Bool.eq_iff_iff, Bool.or_eq_true, beq_iff_eq, BitVec.sle_iff_toInt_le,
      BitVec.slt_iff_toInt_lt, ← BitVec.toInt_inj]
    omega
  have hgt : y.slt x = !(x == y || x.slt y) := by
    rw [← hle, Bool.eq_iff_iff, Bool.not_eq_true', ← Bool.not_eq_true, BitVec.sle_iff_toInt_le,
      BitVec.slt_iff_toInt_lt]
    omega
  have hge : y.sle x = !x.slt y := by
    rw [Bool.eq_iff_iff, Bool.not_eq_true', ← Bool.not_eq_true, BitVec.sle_iff_toInt_le,
      BitVec.slt_iff_toInt_lt]
    omega
  cases operator <;>
    simp only [condition, onWords, IntegerOp.apply, Flags.describe, Flags.holds?,
      Option.bind_some, Option.map_some, Option.some.injEq]
  case less => exact hs
  case lessEquals => rw [hle, hz, hs]
  case greater => rw [hgt, hz, ← hs, Bool.not_or, bne, Bool.not_not]
  case greaterEquals => rw [hge, ← hs, bne, Bool.not_not]
  case equals => exact hz
  case notEquals => exact congrArg (!·) hz

theorem holds_orderIntegers (operator : Comparison) (l r : Int64) :
    operator.holds (orderIntegers l r) = operator.onWords l.toBitVec r.toBitVec := by
  have hlt : l < r ↔ l.toBitVec.toInt < r.toBitVec.toInt := Int64.lt_iff_toInt_lt
  have heq : l = r ↔ l.toBitVec.toInt = r.toBitVec.toInt := by
    rw [BitVec.toInt_inj, Int64.toBitVec_inj]
  unfold orderIntegers
  rw [Bool.eq_iff_iff]
  cases operator <;>
    simp only [holds, onWords, BitVec.slt_iff_toInt_lt, BitVec.sle_iff_toInt_le, beq_iff_eq,
      bne_iff_ne, ne_eq, ← BitVec.toInt_inj, hlt, heq] <;> grind

theorem holds_orderBooleans (operator : Comparison) (l r : Bool) :
    operator.holds (orderBooleans l r) = operator.onWords (truthWord l) (truthWord r) := by
  cases operator <;> cases l <;> cases r <;> rfl

variable {L : Layout} {m : Machine} {left : Slot}

theorem effects_wordCode (operator : Comparison) (h : left.type.IsWord) :
    ∃ m', m.effects L (operator.wordCode left ++ [.extendByte .rax .rax]) = some m' ∧
      m'.registers .rax = truthWord (operator.onWords
        (m.load (left.address L (m.registers .rbp))) (m.registers .rax)) ∧ m.Keeps m' := by
  have hflags := operator.holds?_condition
    (m.load (left.address L (m.registers .rbp))) (m.registers .rax)
  rw [wordCode, List.append_assoc, effects_append, effects_operands h, Option.bind_some]
  exact ⟨_, effects_condition (m := Machine.setFlags _ _) hflags, rfl, rfl, rfl⟩

end Comparison

namespace Assembly.Machine

variable {L : Layout} {m : Machine}

theorem effect_constantCode (n : Int64) :
    m.effect L (Gen.constantCode n) = some (m.set .rax n.toBitVec) := by
  have hn : BitVec.ofInt 64 n.toInt = n.toBitVec := BitVec.ofInt_toInt
  unfold Gen.constantCode
  split
  · next h =>
    have hrange : -2 ^ 31 ≤ n.toInt ∧ n.toInt < 2 ^ 31 :=
      (by simpa using h : Int32.minValue.toInt ≤ n.toInt ∧ n.toInt ≤ Int32.maxValue.toInt).imp_right
        Int.lt_of_le_sub_one
    change (if _ then some (BitVec.ofInt 64 n.toInt) else none).bind _ = _
    rw [if_pos hrange, hn]
    rfl
  · rw [← hn]
    rfl

theorem effect_truth (b : Bool) :
    m.effect L (.move (.immediate (if b then 1 else 0)) (.register .rax)) =
      some (m.set .rax (truthWord b)) := by
  cases b <;> rfl

end Assembly.Machine

/-! ## Connectives and signs -/

section

variable {L : Layout} {m : Machine} {left : Slot} {l r : Value}

theorem effects_truths (bit : BitOp) {right : ValueType} (hl : left.type.IsWord)
    (hr : right.IsWord) : ∃ m', m.effects L (right.truthCode ++
        [.move (.register .rax) (.register .r11)] ++ left.loadCode ++ left.type.truthCode ++
        [.bits bit (.register .r11) .rax]) = some m' ∧
      m'.registers .rax =
        bit.apply (truthWord (m.load (left.address L (m.registers .rbp)) != 0))
          (truthWord (m.registers .rax != 0)) ∧ m.Keeps m' := by
  simp only [effects_append, effects_truthCode hr, Option.bind_some, effects_cons, effect_move,
    effects_nil, effects_loadCode hl, effects_truthCode hl]
  exact ⟨_, rfl, rfl, rfl, rfl⟩

theorem Connective.realizes_code (operator : Connective) {right : ValueType}
    (hl : left.type.IsWord) (hr : right.IsWord)
    (hlw : l.word? = some (m.load (left.address L (m.registers .rbp))))
    (hrw : r.word? = some (m.registers .rax)) :
    Realizes L (operator.code left right) m (operator.apply l r) := by
  have hlt := Value.isTruthy_of_word? hlw
  have hrt := Value.isTruthy_of_word? hrw
  cases operator with
  | and =>
    obtain ⟨m', he, hw, hk⟩ := effects_truths (L := L) (m := m) .and hl hr
    refine .of_effects (v := .boolean (l.isTruthy && r.isTruthy)) he ?_ hk
    rw [hw, ← hlt, ← hrt]
    cases l.isTruthy <;> cases r.isTruthy <;> rfl
  | or =>
    obtain ⟨m', he, hw, hk⟩ := effects_truths (L := L) (m := m) .or hl hr
    refine .of_effects (v := .boolean (l.isTruthy || r.isTruthy)) he ?_ hk
    rw [hw, ← hlt, ← hrt]
    cases l.isTruthy <;> cases r.isTruthy <;> rfl

theorem UnaryOperator.realizes_not {t : ValueType} (ht : t.IsWord)
    (hw : l.word? = some (m.registers .rax)) :
    Realizes L (t.truthCode ++ [.bits .exclusive (.immediate 1) .rax]) m
      (UnaryOperator.not.apply l) := by
  have hlt := Value.isTruthy_of_word? hw
  have ho : UnaryOperator.not.apply l = .value (.boolean !l.isTruthy) := by
    cases l <;> rfl
  have he : ∃ m', m.effects L (t.truthCode ++ [.bits .exclusive (.immediate 1) .rax]) = some m' ∧
      m'.registers .rax = truthWord (m.registers .rax != 0) ^^^ 1 ∧ m.Keeps m' := by
    rw [effects_append, effects_truthCode ht]
    exact ⟨_, rfl, rfl, rfl, rfl⟩
  obtain ⟨m', he, hx, hk⟩ := he
  rw [ho]
  refine .of_effects he ?_ hk
  rw [hx, ← hlt]
  cases l.isTruthy <;> rfl

end

end ScriptLang
