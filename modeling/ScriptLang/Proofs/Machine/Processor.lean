import ScriptLang.Proofs.Machine.Frame

/-!
# Words on their way

What calls need beyond integers: the vector registers, of which arguments take the low
quadword, and the stack. Code without jumps is run from its first instruction to its end.
-/

namespace ScriptLang

namespace Assembly

structure Processor where
  machine : Machine
  /-- The low quadword of each vector register. -/
  floats : FloatRegister → BitVec 64

/-- The address some bytes below a base. -/
def below (base : BitVec 64) (depth : Int) : BitVec 64 := base + BitVec.ofInt 64 (-depth)

section

variable {base : BitVec 64}

theorem below_sub_eight (depth : Int) : below base depth - 8 = below base (depth + 8) := by
  unfold below
  rw [Int.neg_add, BitVec.ofInt_add, ← BitVec.add_assoc, BitVec.sub_eq_add_neg]
  rfl

theorem below_add (depth offset : Int) :
    below base depth + BitVec.ofInt 64 offset = below base (depth - offset) := by
  unfold below
  rw [BitVec.add_assoc, ← BitVec.ofInt_add]
  congr 2
  omega

theorem below_below (depth further : Int) :
    below (below base depth) further = below base (depth + further) := by
  unfold below
  rw [Int.neg_add, BitVec.ofInt_add, BitVec.add_assoc]

theorem inFrame_of_covers {depth : Int} {x : BitVec 64} (h : Covers (below base depth) x) :
    InFrame base (depth - 8) depth x := by
  have hdepth : depth = depth - 8 + 8 := by omega
  rw [hdepth, below] at h
  have h := InFrame.of_covers h
  rwa [← hdepth] at h

/-- A word keeps its value when one is stored deeper or higher, as far as memory reaches. -/
theorem Machine.load_store_below (m : Machine) {depth other : Int} (w : BitVec 64)
    (h : depth + 8 ≤ other ∨ other + 8 ≤ depth) (hfits : other - depth ≤ 2 ^ 64 - 8)
    (hfits' : depth - other ≤ 2 ^ 64 - 8) :
    (m.store (below base other) w).load (below base depth) = m.load (below base depth) := by
  apply Machine.load_store_of_apart
  intro x hx hx'
  have hx := inFrame_of_covers hx
  have hx' := inFrame_of_covers hx'
  rcases h with h | h
  · exact hx.disjoint (by omega) (by omega) hx'
  · exact hx'.disjoint (by omega) (by omega) hx

end

namespace Processor

def register (m : Processor) (r : Register) : BitVec 64 := m.machine.registers r

def load (m : Processor) (a : BitVec 64) : BitVec 64 := m.machine.load a

def setFloat (m : Processor) (x : FloatRegister) (w : BitVec 64) : Processor :=
  { m with floats := fun y => if y = x then w else m.floats y }

/-- Puts a word on the stack. -/
def push (m : Processor) (w : BitVec 64) : Processor :=
  let top := m.register .rsp - 8
  { m with machine := (m.machine.set .rsp top).store top w }

/-- The state behind an instruction that does not jump. A call puts the return address on the
stack; what is run next is the callee. -/
def effect (L : Layout) (back : BitVec 64) (m : Processor) : Instruction → Option Processor
  | .label _ => some m
  | .push source => (m.machine.read L source).map m.push
  | .call _ => some (m.push back)
  | .loadFloat a x => (m.machine.address L a).map fun a => m.setFloat x (m.load a)
  | .storeFloat x a => (m.machine.address L a).map fun a =>
    { m with machine := m.machine.store a (m.floats x) }
  | .moveLong n r =>
    some { m with machine := m.machine.set r ((BitVec.ofInt 32 n).setWidth 64) }
  | i => (m.machine.effect L i).map fun machine => { m with machine }

/-- The state behind code without jumps. -/
def effects (L : Layout) (back : BitVec 64) : List Instruction → Processor → Option Processor
  | [], m => some m
  | i :: code, m => (m.effect L back i).bind (effects L back code)

variable {L : Layout} {back : BitVec 64} {m m' m'' : Processor} {c d : List Instruction}

theorem effects_cons {i : Instruction} (h : m.effect L back i = some m')
    (h' : effects L back c m' = some m'') : effects L back (i :: c) m = some m'' := by
  rw [effects, h]
  exact h'

theorem effects_append (h : effects L back c m = some m') (h' : effects L back d m' = some m'') :
    effects L back (c ++ d) m = some m'' := by
  induction c generalizing m with
  | nil =>
    cases h
    exact h'
  | cons i c ih =>
    obtain ⟨u, hi, hc⟩ := Option.bind_eq_some_iff.mp h
    exact effects_cons hi (ih hc)

end Processor

end Assembly

end ScriptLang
