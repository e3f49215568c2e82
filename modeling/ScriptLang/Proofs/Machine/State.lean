import Mathlib.Algebra.Group.Int.Defs
import ScriptLang.Assembly.Instruction

/-!
# Machine states

Registers, status flags and memory of an x86-64 processor, and what instructions on
integers do to them. Words lie in memory with their lowest byte first. Instructions
that only strings, floats or calls need are not covered: the machine is stuck at them.
-/

namespace ScriptLang.Assembly

/-- The status flags; none where an instruction leaves one undefined. -/
structure Flags where
  zero : Option Bool
  sign : Option Bool
  overflow : Option Bool

namespace Flags

def undefined : Flags := ⟨none, none, none⟩

/-- The flags that describe a result. -/
def describe (result : BitVec 64) (overflow : Bool) : Flags :=
  ⟨some (result == 0), some result.msb, some overflow⟩

/-- Whether a condition holds. Carry and parity, which only float comparisons set in
compiled code, are not covered. -/
def holds? (f : Flags) : Condition → Option Bool
  | .e => f.zero
  | .ne => f.zero.map (!·)
  | .l => f.sign.bind fun s => f.overflow.map (s != ·)
  | .ge => f.sign.bind fun s => f.overflow.map (s == ·)
  | .le => f.zero.bind fun z => f.sign.bind fun s => f.overflow.map fun o => z || s != o
  | .g => f.zero.bind fun z => f.sign.bind fun s => f.overflow.map fun o => !z && s == o
  | .s => f.sign
  | .o => f.overflow
  | .a | .ae | .p | .np => none

end Flags

/-- Where the linker put the labels. -/
abbrev Layout := Label → BitVec 64

structure Machine where
  registers : Register → BitVec 64
  flags : Flags
  memory : BitVec 64 → BitVec 8

/-- The byte at `x` belongs to the word at `a`. -/
def Covers (a x : BitVec 64) : Prop := (x - a).toNat < 8

instance (a x : BitVec 64) : Decidable (Covers a x) := inferInstanceAs (Decidable (_ < _))

namespace Machine

/-- Writes a register. -/
def set (m : Machine) (r : Register) (w : BitVec 64) : Machine :=
  { m with registers := fun q => if q = r then w else m.registers q }

def setFlags (m : Machine) (f : Flags) : Machine := { m with flags := f }

/-- The word at an address. -/
def load (m : Machine) (a : BitVec 64) : BitVec 64 :=
  m.memory (a + 7) ++ m.memory (a + 6) ++ m.memory (a + 5) ++ m.memory (a + 4) ++
    m.memory (a + 3) ++ m.memory (a + 2) ++ m.memory (a + 1) ++ m.memory (a + 0)

/-- Writes the word at an address. -/
def store (m : Machine) (a w : BitVec 64) : Machine :=
  { m with
    memory := fun x =>
      if Covers a x then w.extractLsb' (8 * (x - a).toNat) 8 else m.memory x }

variable (m : Machine) (r q : Register) (a x w : BitVec 64)

@[simp] theorem registers_set : (m.set r w).registers q = if q = r then w else m.registers q := rfl

@[simp] theorem registers_store : (m.store a w).registers = m.registers := rfl

theorem memory_store_of_not_covers {a x : BitVec 64} (h : ¬ Covers a x) :
    (m.store a w).memory x = m.memory x := if_neg h

/-- The word at an address is read off the bytes that belong to it. -/
theorem load_congr {m m' : Machine} {a : BitVec 64}
    (h : ∀ x, Covers a x → m'.memory x = m.memory x) : m'.load a = m.load a := by
  have hk : ∀ k : BitVec 64, k.toNat < 8 → m'.memory (a + k) = m.memory (a + k) := by
    intro k hk
    refine h _ ?_
    rw [Covers, BitVec.add_comm, BitVec.add_sub_cancel]
    exact hk
  rw [load, load, hk 7 (by decide), hk 6 (by decide), hk 5 (by decide), hk 4 (by decide),
    hk 3 (by decide), hk 2 (by decide), hk 1 (by decide), hk 0 (by decide)]

/-- A word is its bytes. -/
theorem append_bytes (w : BitVec 64) :
    w.extractLsb' 56 8 ++ w.extractLsb' 48 8 ++ w.extractLsb' 40 8 ++ w.extractLsb' 32 8 ++
      w.extractLsb' 24 8 ++ w.extractLsb' 16 8 ++ w.extractLsb' 8 8 ++ w.extractLsb' 0 8 = w := by
  iterate 7 rw [BitVec.extractLsb'_append_extractLsb'_eq_extractLsb' (by rfl)]
  exact BitVec.extractLsb'_eq_self

theorem load_store : (m.store a w).load a = w := by
  have hk : ∀ k : BitVec 64, k.toNat < 8 →
      (m.store a w).memory (a + k) = w.extractLsb' (8 * k.toNat) 8 := by
    intro k hk
    have hsub : a + k - a = k := by rw [BitVec.add_comm, BitVec.add_sub_cancel]
    change (if Covers a (a + k) then _ else _) = _
    rw [if_pos (by rwa [Covers, hsub]), hsub]
  rw [load, hk 7 (by decide), hk 6 (by decide), hk 5 (by decide), hk 4 (by decide),
    hk 3 (by decide), hk 2 (by decide), hk 1 (by decide), hk 0 (by decide)]
  exact append_bytes w

/-- A word keeps its value when another is written that shares no byte with it. -/
theorem load_store_of_apart {a b : BitVec 64} (h : ∀ x, Covers b x → ¬ Covers a x) :
    (m.store a w).load b = m.load b :=
  load_congr fun x hx => m.memory_store_of_not_covers w (h x hx)

/-! ## Operands -/

def address (L : Layout) (m : Machine) : Memory → Option (BitVec 64)
  | .frame offset => some (m.registers .rbp + BitVec.ofInt 64 offset)
  | .data label offset => some (L label + BitVec.ofNat 64 offset)
  | .pointedBy base => some (m.registers base)
  | .imported _ => none

/-- Immediates have 32 bits and are extended with their sign. -/
def read (L : Layout) (m : Machine) : Operand → Option (BitVec 64)
  | .immediate n => if -2 ^ 31 ≤ n ∧ n < 2 ^ 31 then some (BitVec.ofInt 64 n) else none
  | .register r => some (m.registers r)
  | .memory a => (m.address L a).map m.load

def write (L : Layout) (m : Machine) (w : BitVec 64) : Operand → Option Machine
  | .immediate _ => none
  | .register r => some (m.set r w)
  | .memory a => (m.address L a).map fun a => m.store a w

end Machine

/-! ## Instructions -/

/-- The result of an operation on the target `x`, with the flags it leaves. -/
def IntegerOp.apply (operator : IntegerOp) (x y : BitVec 64) : BitVec 64 × Flags :=
  match operator with
  | add => (x + y, .describe (x + y) (x.saddOverflow y))
  | subtract => (x - y, .describe (x - y) (x.ssubOverflow y))
  | multiply => (x * y, ⟨none, none, some (x.smulOverflow y)⟩)

def BitOp.apply (operator : BitOp) (x y : BitVec 64) : BitVec 64 :=
  match operator with
  | and => x &&& y
  | or => x ||| y
  | exclusive => x ^^^ y

/-- Quotient and remainder of a signed dividend of 128 bits, cut toward zero. There are
none if the divisor is zero or the quotient does not fit. -/
def divideWide (high low divisor : BitVec 64) : Option (BitVec 64 × BitVec 64) :=
  let dividend := high.toInt * 2 ^ 64 + low.toNat
  let quotient := dividend.tdiv divisor.toInt
  if divisor ≠ 0 ∧ -2 ^ 63 ≤ quotient ∧ quotient < 2 ^ 63 then
    some (BitVec.ofInt 64 quotient, BitVec.ofInt 64 (dividend.tmod divisor.toInt))
  else none

/-- The state behind an instruction that does not jump. -/
def Machine.effect (L : Layout) (m : Machine) : Instruction → Option Machine
  | .move (.memory _) (.memory _) => none
  | .move source target => (m.read L source).bind fun w => m.write L w target
  | .moveWide n r => some (m.set r (BitVec.ofInt 64 n))
  | .addressOffset n base r => some (m.set r (m.registers base + BitVec.ofInt 64 n))
  | .clear r => some ((m.set r 0).setFlags (.describe 0 false))
  | .integer o source r => (m.read L source).map fun y =>
    let (w, f) := o.apply (m.registers r) y
    (m.set r w).setFlags f
  | .bits o source r => (m.read L source).map fun y =>
    let w := o.apply (m.registers r) y
    (m.set r w).setFlags (.describe w false)
  | .negate r =>
    let w := -m.registers r
    some ((m.set r w).setFlags (.describe w (m.registers r).negOverflow))
  | .extendSign => some (m.set .rdx (if (m.registers .rax).msb then BitVec.allOnes 64 else 0))
  | .divide r =>
    (divideWide (m.registers .rdx) (m.registers .rax) (m.registers r)).map fun (q, s) =>
      ((m.set .rax q).set .rdx s).setFlags .undefined
  | .test r => some (m.setFlags (.describe (m.registers r) false))
  | .compare source r => (m.read L source).map fun y =>
    m.setFlags (IntegerOp.subtract.apply (m.registers r) y).2
  | .set c r => (m.flags.holds? c).map fun b =>
    m.set r ((m.registers r).extractLsb' 8 56 ++ (BitVec.ofBool b).setWidth 8)
  | .extendByte source r => some (m.set r (((m.registers source).setWidth 8).setWidth 64))
  | _ => none

end ScriptLang.Assembly
