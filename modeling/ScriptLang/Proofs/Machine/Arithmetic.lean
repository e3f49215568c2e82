import ScriptLang.Proofs.Machine.Operation

/-!
# Code for divisions

A division first looks at the divisor. Zero traps; -1, for which the least integer has
no quotient, is dealt with apart; any other divisor is left to the processor.
-/

namespace ScriptLang

open Assembly Assembly.Machine

/-- The code in front of a division, in which `corner` is for the divisor -1. -/
def guarding (trap : Trap) (number : Nat) (corner : Instruction) : List Instruction :=
  [.test .rcx, .jumpIf .e (.trap trap), .compare (.immediate (-1)) .rcx,
   .jumpIf .ne (.numbered .divide number), corner, .jump (.numbered .divideEnd number),
   .label (.numbered .divide number)]

/-- The code of a division, in which `body` divides. -/
def guarded (trap : Trap) (number : Nat) (corner : Instruction) (body : List Instruction) :
    List Instruction :=
  guarding trap number corner ++ (body ++ [.label (.numbered .divideEnd number)])

/-- The flags tell how the divisor compares with -1. -/
def Assembly.Machine.compared (m : Machine) : Machine :=
  m.setFlags (IntegerOp.subtract.apply (m.registers .rcx) (-1)).2

section

variable {L : Layout} {m m' : Machine} {trap : Trap} {number : Nat} {corner : Instruction}
  {body : List Instruction}

theorem target_trap (hc : ∀ l, corner ≠ .label l) (hb : ∀ l, .label l ∉ body) :
    target (guarded trap number corner body) (.trap trap) = .outside (.trap trap) := by
  rw [guarded, target_append_right (by simp [guarding, (hc _).symm]),
    target_append_right (hb _)]
  rfl

theorem target_divide (hc : ∀ l, corner ≠ .label l) :
    target (guarded trap number corner body) (.numbered .divide number) = .inside 6 := by
  simp [target, guarded, guarding, List.findIdx?_cons, hc]

theorem target_divideEnd (hc : ∀ l, corner ≠ .label l) (hb : ∀ l, .label l ∉ body) :
    target (guarded trap number corner body) (.numbered .divideEnd number) =
      .inside (7 + body.length) := by
  rw [guarded, target_append_right (by simp [guarding, (hc _).symm]),
    target_append_right (hb _)]
  simp [target, List.findIdx?_cons, Place.shift, guarding]

theorem leaves_guarded (hc : ∀ l, corner ≠ .label l) (hb : ∀ l, .label l ∉ body)
    (h : m.registers .rcx = 0) :
    ∃ m', Leaves L (guarded trap number corner body) m (.trap trap) m' ∧ m.Keeps m' := by
  refine ⟨m.setFlags (.describe (m.registers .rcx) false), .effect (i := .test .rcx) rfl rfl
    (.jumpIf (b := true) (l := .trap trap) (k := .e) rfl ?_ ?_), rfl, rfl⟩
  · rw [h]
    rfl
  · rw [if_pos rfl, target_trap hc hb]
    exact .refl

theorem runs_guarding (trap : Trap) (number : Nat) (body : List Instruction)
    (hc : ∀ l, corner ≠ .label l) (h : m.registers .rcx ≠ 0) :
    Runs L (guarded trap number corner body) ⟨.inside 0, m⟩
      ⟨.inside (if m.registers .rcx = -1 then 4 else 6), m.compared⟩ := by
  have hz : (Flags.describe (m.registers .rcx) false).holds? .e = some false :=
    congrArg some (beq_eq_false_iff_ne.mpr h)
  have hn := Comparison.holds?_condition .notEquals (m.registers .rcx) (-1)
  refine .effect (i := .test .rcx) rfl rfl
    (.jumpIf (l := .trap trap) (k := .e) rfl hz
      (.effect (i := .compare (.immediate (-1)) .rcx) rfl rfl
        (.jumpIf (l := .numbered .divide number) (k := .ne) rfl hn ?_)))
  rw [target_divide hc]
  by_cases h' : m.registers .rcx = -1
  · rw [h']
    exact .refl
  · have hne : Comparison.notEquals.onWords (m.registers .rcx) (-1) = true := bne_iff_ne.mpr h'
    rw [if_neg h', hne]
    exact .refl

/-- The last label is passed. -/
theorem runs_divideEnd :
    Runs L (guarded trap number corner body) ⟨.inside (7 + body.length), m⟩
      ⟨.inside (guarded trap number corner body).length, m⟩ := by
  have hlength : (guarded trap number corner body).length = 7 + body.length + 1 := by
    simp only [guarded, guarding, List.length_append, List.length_cons, List.length_nil]
    omega
  have hlast : (guarded trap number corner body)[7 + body.length]? =
      some (.label (.numbered .divideEnd number)) := by
    rw [guarded, List.getElem?_append_right (Nat.le_add_right 7 body.length)]
    change (body ++ _)[7 + body.length - 7]? = _
    rw [Nat.add_sub_cancel_left, List.getElem?_concat_length]
  rw [hlength]
  exact .label hlast .refl

theorem finishes_corner (hc : ∀ l, corner ≠ .label l) (hb : ∀ l, .label l ∉ body)
    (h : m.registers .rcx = -1) (he : m.compared.effect L corner = some m') :
    Finishes L (guarded trap number corner body) m m' := by
  have hne : m.registers .rcx ≠ 0 := by
    rw [h]
    decide
  have hrun := runs_guarding (L := L) trap number body hc hne
  rw [if_pos h] at hrun
  refine hrun.trans (Runs.effect rfl he (.jump (l := .numbered .divideEnd number) rfl ?_))
  rw [target_divideEnd hc hb]
  exact runs_divideEnd

theorem finishes_divide (hc : ∀ l, corner ≠ .label l) (h : m.registers .rcx ≠ 0)
    (h' : m.registers .rcx ≠ -1) (he : m.compared.effects L body = some m') :
    Finishes L (guarded trap number corner body) m m' := by
  have hrun := runs_guarding (L := L) trap number body hc h
  rw [if_neg h'] at hrun
  have hlabels : ∀ l, .label l ∈ body ++ [.label (.numbered .divideEnd number)] →
      .label l ∉ guarding trap number corner := by
    intro l hl
    rcases List.mem_append.mp hl with hl | hl
    · exact absurd hl (label_notMem_of_effects he)
    · cases List.mem_singleton.mp hl
      simp [guarding, (hc _).symm]
  have hbody : Runs L (guarded trap number corner body) ⟨.inside 7, m.compared⟩
      ⟨.inside (7 + body.length), m'⟩ :=
    Runs.append_right (Runs.append_left (Finishes.of_effects he) (by rintro l ⟨⟩))
      hlabels (by rintro l ⟨⟩)
  exact hrun.trans (Runs.label (l := .numbered .divide number) rfl (hbody.trans runs_divideEnd))

end

/-- A dividend that is the extension of a word is divided as a word. -/
theorem divideWide_extended {x d : BitVec 64} (h : d ≠ 0) (h' : d ≠ -1) :
    divideWide (if x.msb then BitVec.allOnes 64 else 0) x d = some (x.sdiv d, x.srem d) := by
  have hx : (if x.msb then BitVec.allOnes 64 else 0).toInt * 2 ^ 64 + x.toNat = x.toInt := by
    rw [BitVec.toInt_eq_msb_cond x]
    cases x.msb with
    | false => exact (congrArg (· + (x.toNat : Int)) (Int.zero_mul _)).trans (Int.zero_add _)
    | true =>
      change (-1 : Int) * 2 ^ 64 + x.toNat = x.toNat - (2 ^ 64 : Nat)
      omega
  have hq := BitVec.toInt_sdiv_of_ne_or_ne x d (.inr h')
  have hlow := BitVec.le_toInt (x.sdiv d)
  have hhigh := BitVec.toInt_lt (x := x.sdiv d)
  rw [divideWide, hx, ← hq, if_pos ⟨h, hlow, hhigh⟩, BitVec.ofInt_toInt, ← BitVec.toInt_srem,
    BitVec.ofInt_toInt]

/-- The quotient by -1 is a negation, and there is no remainder. -/
theorem sdiv_neg_one (x : BitVec 64) : x.sdiv (-1) = -x := by
  apply BitVec.eq_of_toInt_eq
  rw [BitVec.toInt_sdiv, show (-1 : BitVec 64).toInt = -1 by decide, BitVec.toInt_neg,
    Int.tdiv_neg, Int.tdiv_one]

theorem srem_neg_one (x : BitVec 64) : x.srem (-1) = 0 := by
  apply BitVec.eq_of_toInt_eq
  rw [BitVec.toInt_srem, show (-1 : BitVec 64).toInt = -1 by decide, Int.tmod_neg, Int.tmod_one]
  rfl

namespace Arithmetic

variable {L : Layout} {m : Machine} {l r : Int64}

/-- What a division has to do besides looking at the divisor. -/
theorem realizes_guarded {trap : Trap} {number : Nat} {corner : Instruction}
    {body : List Instruction} {cause : Cause} {q : Int64} (hc : ∀ l, corner ≠ .label l)
    (hb : ∀ l, .label l ∉ body) (ht : cause.trap? = some trap)
    (hr : m.registers .rcx = r.toBitVec)
    (hcorner : r = -1 → ∃ m', m.compared.effect L corner = some m' ∧
      m'.registers .rax = q.toBitVec ∧ m.Keeps m')
    (hbody : r ≠ 0 → r ≠ -1 → ∃ m', m.compared.effects L body = some m' ∧
      m'.registers .rax = q.toBitVec ∧ m.Keeps m') :
    Realizes L (guarded trap number corner body) m
      (if r = 0 then .failed cause else .value (.integer q)) := by
  have hzero : m.registers .rcx = 0 ↔ r = 0 := by
    rw [hr, ← Int64.toBitVec_inj]
    rfl
  have hone : m.registers .rcx = -1 ↔ r = -1 := by
    rw [hr, ← Int64.toBitVec_inj]
    rfl
  by_cases h : r = 0
  · rw [if_pos h]
    obtain ⟨m', hrun, hk⟩ := leaves_guarded hc hb (hzero.mpr h)
    exact ⟨trap, m', ht, hrun, hk⟩
  rw [if_neg h]
  by_cases h' : r = -1
  · obtain ⟨m', he, hq, hk⟩ := hcorner h'
    exact ⟨m', finishes_corner hc hb (hone.mpr h') he, congrArg some hq.symm, hk⟩
  · obtain ⟨m', he, hq, hk⟩ := hbody h h'
    exact ⟨m', finishes_divide hc (mt hzero.mp h) (mt hone.mp h') he, congrArg some hq.symm, hk⟩

theorem effects_divide (hl : m.registers .rax = l.toBitVec)
    (hr : m.registers .rcx = r.toBitVec) (h : r ≠ 0) (h' : r ≠ -1) :
    ∃ m', m.compared.effects L [.extendSign, .divide .rcx] = some m' ∧
      m'.registers .rax = (l / r).toBitVec ∧ m'.registers .rdx = (l % r).toBitVec ∧
      m.Keeps m' := by
  let extension := if (m.registers .rax).msb then BitVec.allOnes 64 else 0
  have hd : divideWide extension (m.registers .rax) (m.registers .rcx) =
      some ((l / r).toBitVec, (l % r).toBitVec) := by
    have h0 : m.registers .rcx ≠ 0 := fun h0 => h (Int64.toBitVec_inj.mp (hr.symm.trans h0))
    have h1 : m.registers .rcx ≠ -1 := fun h1 => h' (Int64.toBitVec_inj.mp (hr.symm.trans h1))
    rw [divideWide_extended h0 h1, hl, hr]
    rfl
  refine ⟨(((m.compared.set .rdx extension).set .rax (l / r).toBitVec).set .rdx
    (l % r).toBitVec).setFlags .undefined, ?_, rfl, rfl, rfl, rfl⟩
  change ((divideWide extension (m.registers .rax) (m.registers .rcx)).map _).bind _ = _
  rw [hd]
  rfl

theorem realizes_integerCode (operator : Arithmetic) (number : Nat)
    (hl : m.registers .rax = l.toBitVec) (hr : m.registers .rcx = r.toBitVec) :
    Realizes L (operator.integerCode number) m (operator.onIntegers l r) := by
  have hword : ∀ (o : IntegerOp) (w : Int64),
      (o.apply l.toBitVec r.toBitVec).1 = w.toBitVec →
      Realizes L [.integer o (.register .rcx) .rax] m (.value (.integer w)) := by
    intro o w hw
    refine .of_effects rfl ?_ ⟨rfl, rfl⟩
    change some _ = some (o.apply (m.registers .rax) (m.registers .rcx)).1
    rw [hl, hr, hw]
  cases operator with
  | add => exact hword .add (l + r) rfl
  | subtract => exact hword .subtract (l - r) rfl
  | multiply => exact hword .multiply (l * r) rfl
  | divide =>
    change Realizes L (guarded .divisionByZero number (.negate .rax) [.extendSign, .divide .rcx])
      m _
    refine realizes_guarded (by simp) (by simp) rfl hr ?_ ?_
    · rintro rfl
      refine ⟨_, rfl, ?_, rfl, rfl⟩
      change -m.registers .rax = l.toBitVec.sdiv (-1)
      rw [hl, sdiv_neg_one]
    · intro h h'
      obtain ⟨m', he, hq, -, hk⟩ := effects_divide (L := L) hl hr h h'
      exact ⟨m', he, hq, hk⟩
  | modulo =>
    change Realizes L (guarded .moduloByZero number (.clear .rax)
      [.extendSign, .divide .rcx, .move (.register .rdx) (.register .rax)]) m _
    refine realizes_guarded (by simp) (by simp) rfl hr ?_ ?_
    · rintro rfl
      refine ⟨_, rfl, ?_, rfl, rfl⟩
      exact (srem_neg_one l.toBitVec).symm
    · intro h h'
      obtain ⟨m', he, -, hs, hk⟩ := effects_divide (L := L) hl hr h h'
      refine ⟨m'.set .rax (m'.registers .rdx), ?_, hs, hk.memory, hk.base⟩
      have happend := effects_append (L := L) (m := m.compared) [.extendSign, .divide .rcx]
        [.move (.register .rdx) (.register .rax)]
      rw [he] at happend
      exact happend

end Arithmetic
end ScriptLang
