import ScriptLang.Proofs.Codegen.Emission
import ScriptLang.Proofs.Machine.Arithmetic
import ScriptLang.Proofs.Typing.Operator

/-!
# Code emitted for operators

On operands that are words, the code emitted for an operator realizes it, also where
the operator is not for operands of these types.
-/

namespace ScriptLang

open Assembly Assembly.Machine

/-! ## Operators on words -/

theorem Value.exists_integer {v : Value} (h : v.type = .integer) : ∃ n, v = .integer n := by
  cases v with
  | integer n => exact ⟨n, rfl⟩
  | _ => cases h

theorem Value.exists_boolean {v : Value} (h : v.type = .boolean) : ∃ b, v = .boolean b := by
  cases v with
  | boolean b => exact ⟨b, rfl⟩
  | _ => cases h

/-- Arithmetic that is for numbers only gives zero. -/
theorem Arithmetic.apply_of_boolean (operator : Arithmetic) {l r : Value} (hl : l.type.IsWord)
    (hr : r.type.IsWord) (h : ¬ (l.type = .integer ∧ r.type = .integer)) :
    operator.apply l r = .invalid operator.symbol l r (.integer 0) := by
  rcases hl with hl | hl <;> rcases hr with hr | hr
  · exact absurd ⟨hl, hr⟩ h
  · obtain ⟨a, rfl⟩ := Value.exists_integer hl
    obtain ⟨b, rfl⟩ := Value.exists_boolean hr
    cases operator <;> rfl
  · obtain ⟨a, rfl⟩ := Value.exists_boolean hl
    obtain ⟨b, rfl⟩ := Value.exists_integer hr
    cases operator <;> rfl
  · obtain ⟨a, rfl⟩ := Value.exists_boolean hl
    obtain ⟨b, rfl⟩ := Value.exists_boolean hr
    cases operator <;> rfl

theorem Arithmetic.staticType_of_isWord (operator : Arithmetic) {t u : ValueType}
    (ht : t.IsWord) (hu : u.IsWord) : operator.staticType t u = .integer := by
  rcases ht with rfl | rfl <;> rcases hu with rfl | rfl <;> cases operator <;> rfl

theorem BinaryOperator.isWord_resultType (operator : BinaryOperator) {t u : ValueType}
    (ht : t.IsWord) (hu : u.IsWord) : (operator.resultType t u).IsWord := by
  cases operator with
  | arithmetic o => exact .inl (o.staticType_of_isWord ht hu)
  | comparison o => exact .inr rfl
  | logical o => exact .inr rfl

theorem UnaryOperator.isWord_resultType (operator : UnaryOperator) {t : ValueType}
    (ht : t.IsWord) : (operator.resultType t).IsWord := by
  cases operator with
  | not => exact .inr rfl
  | _ => exact ht

/-- Words of one type are compared, whichever they are. -/
theorem Comparison.apply_of_word (operator : Comparison) {l r : Value} {x y : BitVec 64}
    (ht : l.type = r.type) (hl : l.word? = some x) (hr : r.word? = some y) :
    operator.apply l r = .value (.boolean (operator.onWords x y)) := by
  rcases Value.isWord_of_word? hl with h | h
  · obtain ⟨a, rfl⟩ := Value.exists_integer h
    obtain ⟨b, rfl⟩ := Value.exists_integer (ht.symm.trans h)
    cases hl
    cases hr
    rw [← operator.holds_orderIntegers a b]
    rfl
  · obtain ⟨a, rfl⟩ := Value.exists_boolean h
    obtain ⟨b, rfl⟩ := Value.exists_boolean (ht.symm.trans h)
    cases hl
    cases hr
    rw [← operator.holds_orderBooleans a b]
    rfl

theorem Comparison.apply_of_ne (operator : Comparison) {l r : Value} (hl : l.type.IsWord)
    (hr : r.type.IsWord) (h : l.type ≠ r.type) :
    operator.apply l r = .reported (.typeMatch l.type.name r.type.name) (.boolean false) := by
  rcases hl with hl | hl <;> rcases hr with hr | hr
  · exact absurd (hl.trans hr.symm) h
  · obtain ⟨a, rfl⟩ := Value.exists_integer hl
    obtain ⟨b, rfl⟩ := Value.exists_boolean hr
    rfl
  · obtain ⟨a, rfl⟩ := Value.exists_boolean hl
    obtain ⟨b, rfl⟩ := Value.exists_integer hr
    rfl
  · exact absurd (hl.trans hr.symm) h

theorem Realizes.clear {L : Layout} {m : Machine} (cause : Cause) :
    Realizes L [.clear .rax] m (.reported cause (.integer 0)) :=
  ⟨_, .of_effects rfl, rfl, rfl, rfl⟩

/-! ## Emission -/

namespace Gen

variable {left : Slot} {right t : ValueType} (g : Generator) (position : Position)

/-- The code realizes the operator on all operands of the types it was generated for. -/
def RealizesBinary (operator : BinaryOperator) (left : Slot) (right : ValueType)
    (code : List Instruction) : Prop :=
  ∀ (L : Layout) (m : Machine) (l r : Value), l.type = left.type → r.type = right →
    l.word? = some (m.load (left.address L (m.registers .rbp))) →
    r.word? = some (m.registers .rax) → Realizes L code m (operator.apply l r)

theorem emitting_emitArithmetic (operator : Arithmetic) (hl : left.type.IsWord)
    (hr : right.IsWord) :
    Emitting (fun t g' code => t = operator.staticType left.type right ∧ g'.frame = g.frame ∧
        RealizesBinary (.arithmetic operator) left right code)
      (emitArithmetic operator left right position) g := by
  have hstatic := operator.staticType_of_isWord hl hr
  have hstring : (operator = .add && (left.type = .string || right = .string)) = false := by
    rcases hl with hl | hl <;> rcases hr with hr | hr <;> simp [hl, hr]
  rw [emitArithmetic, hstring, if_neg Bool.false_ne_true, hstatic]
  by_cases hi : left.type = .integer ∧ right = .integer
  · obtain ⟨hli, rfl⟩ := hi
    rw [if_pos (by simp [hli])]
    refine (emitting_emitIntegerArithmetic operator left g).bind fun _ g' code _ h => ?_
    obtain ⟨hframe, number, rfl⟩ := h
    refine .pure ⟨rfl, hframe, fun L m l r hlt hrt hlw hrw => ?_⟩
    obtain ⟨a, rfl⟩ := Value.exists_integer (hlt.trans hli)
    obtain ⟨b, rfl⟩ := Value.exists_integer hrt
    rw [List.append_nil]
    have ho : operator.apply (.integer a) (.integer b) = operator.onIntegers a b := by
      cases operator <;> rfl
    change Realizes _ _ _ (operator.apply _ _)
    rw [ho]
    exact .after (effects_operands hl) ⟨rfl, rfl⟩ (operator.realizes_integerCode number
        (Option.some.inj hlw).symm (Option.some.inj hrw).symm)
  · have hn : ¬ (left.type.isNumeric && right.isNumeric) = true := by
      rcases hl with hl | hl <;> rcases hr with hr | hr <;> simp_all [ValueType.isNumeric]
    have hs : ¬ (left.type = .integer && right = .integer) = true := by simpa using hi
    rw [if_neg hs, if_neg hn]
    refine (emitting_report _ position g).bind fun _ g' _ _ h => ?_
    obtain ⟨hframe, rfl⟩ := h
    refine (emitting_emit g' (by simp)).bind fun _ g'' _ _ h => ?_
    obtain ⟨hframe', rfl⟩ := h
    refine .pure ⟨rfl, hframe'.trans hframe, fun L m l r hlt hrt _ _ => ?_⟩
    change Realizes _ _ _ (operator.apply _ _)
    rw [operator.apply_of_boolean (by rwa [hlt]) (by rwa [hrt]) (by rwa [hlt, hrt])]
    exact .clear _

theorem emitting_emitComparison (operator : Comparison) (hl : left.type.IsWord)
    (hr : right.IsWord) :
    Emitting (fun t g' code => t = .boolean ∧ g'.frame = g.frame ∧
        RealizesBinary (.comparison operator) left right code)
      (emitComparison operator left right position) g := by
  have hend : ∀ g : Generator, Emitting (fun t g' c => t = .boolean ∧ g'.frame = g.frame ∧
      c = [.extendByte .rax .rax]) (do
        emit [.extendByte .rax .rax]
        return ValueType.boolean) g := fun g =>
    (emitting_emit g (by simp)).bind fun _ _ _ _ h => .pure ⟨rfl, h.1, by rw [h.2]; rfl⟩
  rw [emitComparison]
  by_cases ht : left.type = right
  · have hcode : operator.code left right = .ok (operator.wordCode left) := by
      obtain ⟨location, type, mutable⟩ := left
      obtain rfl : type = right := ht
      rcases hl with hl | hl <;> cases hl <;> rfl
    have hlabels : ∀ l, .label l ∉ operator.wordCode left := by
      simp [Comparison.wordCode, label_notMem_loadCode]
    rw [hcode]
    refine (emitting_emit g hlabels).bind fun _ g' _ _ h => ?_
    obtain ⟨hframe, rfl⟩ := h
    refine (hend g').weaken fun t g'' _ _ h => ?_
    obtain ⟨rfl, hframe', rfl⟩ := h
    refine ⟨rfl, hframe'.trans hframe, fun L m l r hlt hrt hlw hrw => ?_⟩
    change Realizes _ _ _ (operator.apply _ _)
    rw [operator.apply_of_word (hlt.trans (ht.trans hrt.symm)) hlw hrw]
    obtain ⟨m', he, hw, hk⟩ := operator.effects_wordCode (L := L) (m := m) hl
    exact .of_effects he (congrArg some hw.symm) hk
  · have hcode : operator.code left right = .error (.typeMatch left.type.name right.name) := by
      obtain ⟨location, type, mutable⟩ := left
      rcases hl with hl | hl <;> cases hl <;> rcases hr with rfl | rfl <;> first
        | exact absurd rfl ht
        | rfl
    rw [hcode]
    refine (emitting_report _ position g).bind fun _ g' _ _ h => ?_
    obtain ⟨hframe, rfl⟩ := h
    refine (emitting_emit g' (by simp)).bind fun _ g'' _ _ h => ?_
    obtain ⟨hframe', rfl⟩ := h
    refine (hend g'').weaken fun t _ _ _ h => ?_
    obtain ⟨rfl, hframe'', rfl⟩ := h
    refine ⟨rfl, hframe''.trans (hframe'.trans hframe), fun L m l r hlt hrt _ _ => ?_⟩
    change Realizes _ _ _ (operator.apply _ _)
    rw [operator.apply_of_ne (by rwa [hlt]) (by rwa [hrt]) (by rwa [hlt, hrt])]
    exact ⟨_, .of_effects rfl, rfl, rfl, rfl⟩

theorem emitting_emitBinary (operator : BinaryOperator) (hl : left.type.IsWord)
    (hr : right.IsWord) :
    Emitting (fun t g' code => t = operator.resultType left.type right ∧ g'.frame = g.frame ∧
        RealizesBinary operator left right code)
      (emitBinary operator left right position) g := by
  cases operator with
  | arithmetic o => exact emitting_emitArithmetic g position o hl hr
  | comparison o => exact emitting_emitComparison g position o hl hr
  | logical o =>
    have hcode : ∀ l, .label l ∉ o.code left right := by
      simp [Connective.code, label_notMem_loadCode, label_notMem_truthCode]
    refine (emitting_emit g hcode).bind fun _ g' code _ h => ?_
    obtain ⟨hframe, rfl⟩ := h
    refine .pure ⟨rfl, hframe, ?_⟩
    rw [List.append_nil]
    exact fun L m l r _ _ hlw hrw => o.realizes_code hl hr hlw hrw

theorem emitting_emitUnary {operator : UnaryOperator} (hplain : ∀ s, operator ≠ .step s)
    (ht : t.IsWord) :
    Emitting (fun u g' code => u = operator.resultType t ∧ g'.frame = g.frame ∧
        ∀ (L : Layout) (m : Machine) (v : Value), v.type = t →
          v.word? = some (m.registers .rax) → Realizes L code m (operator.apply v))
      (emitUnary operator t position) g := by
  -- A sign that does nothing to the operand has no code, be it reported or not.
  have hkeep : ∀ {o : UnaryOperator}, (∀ v : Value, v.type = t →
      o.apply v = .value v ∨ ∃ cause, o.apply v = .reported cause v) →
      ∀ (L : Layout) (m : Machine) (v : Value), v.type = t →
        v.word? = some (m.registers .rax) → Realizes L [] m (o.apply v) := by
    intro o h L m v hv hw
    rcases h v hv with ho | ⟨cause, ho⟩ <;> rw [ho] <;> exact ⟨m, .of_effects rfl, hw, rfl, rfl⟩
  cases operator with
  | step s => exact absurd rfl (hplain s)
  | not =>
    refine (emitting_emit g (by simp [label_notMem_truthCode])).bind fun _ g' _ _ h => ?_
    obtain ⟨hframe, rfl⟩ := h
    refine .pure ⟨rfl, hframe, fun L m v hv hw => ?_⟩
    rw [List.append_nil]
    exact UnaryOperator.realizes_not ht hw
  | negate =>
    rcases ht with rfl | rfl
    · refine (emitting_emit g (by simp)).bind fun _ g' _ _ h => ?_
      obtain ⟨hframe, rfl⟩ := h
      refine .pure ⟨rfl, hframe, fun L m v hv hw => ?_⟩
      obtain ⟨n, rfl⟩ := Value.exists_integer hv
      refine .of_effects (v := .integer (-n)) rfl ?_ ⟨rfl, rfl⟩
      exact congrArg (fun w => some (-w)) (Option.some.inj hw)
    · refine (emitting_report _ position g).bind fun _ g' _ _ h => ?_
      obtain ⟨hframe, rfl⟩ := h
      refine .pure ⟨rfl, hframe, hkeep fun v hv => ?_⟩
      obtain ⟨b, rfl⟩ := Value.exists_boolean hv
      exact .inr ⟨_, rfl⟩
  | plus =>
    rcases ht with rfl | rfl
    · refine .pure ⟨rfl, rfl, hkeep fun v hv => ?_⟩
      obtain ⟨n, rfl⟩ := Value.exists_integer hv
      exact .inl rfl
    · refine (emitting_report _ position g).bind fun _ g' _ _ h => ?_
      obtain ⟨hframe, rfl⟩ := h
      refine .pure ⟨rfl, hframe, hkeep fun v hv => ?_⟩
      obtain ⟨b, rfl⟩ := Value.exists_boolean hv
      exact .inr ⟨_, rfl⟩

/-! ## Steps -/

variable {g} {name : String}

/-- The code that steps a variable whose value is loaded. -/
def storeStepCode (increment : Bool) (slot : Slot) : List Instruction :=
  match slot.type with
  | .integer =>
    [.addressOffset (if increment then 1 else -1) .rax .rcx] ++
      if slot.mutable then [.move (.register .rcx) (.memory slot.low)] else []
  | _ => []

/-- The code that makes the new value the result of a step that stands before its operand. -/
def newValueCode (step : Step) (slot : Slot) : List Instruction :=
  match slot.type, step.isBefore with
  | .integer, true => [.move (.register .rcx) (.register .rax)]
  | _, _ => []

theorem emitting_emitStep {slot : Slot} (ht : slot.type.IsWord) (increment : Bool) :
    Emitting (fun _ g' code => g'.frame = g.frame ∧ code = storeStepCode increment slot)
      (emitStep name slot increment position) g := by
  obtain ⟨location, type, mutable⟩ := slot
  rcases ht with ht | ht <;> cases ht
  · refine (emitting_emit g (by simp)).bind fun _ g' _ _ h => ?_
    obtain ⟨hframe, rfl⟩ := h
    rw [← hframe]
    cases mutable with
    | true => exact (emitting_emit g' (by simp)).weaken fun _ _ _ _ h => ⟨h.1, by rw [h.2]; rfl⟩
    | false =>
      exact (emitting_report _ position g').weaken fun _ _ _ _ h => ⟨h.1, by rw [h.2]; rfl⟩
  · exact .pure ⟨rfl, rfl⟩

theorem emitting_emitStepValue (step : Step) {slot : Slot} (ht : slot.type.IsWord)
    (hs : g.find? name = some slot) :
    Emitting (fun t g' code => t = slot.type ∧ g'.frame = g.frame ∧
      code = slot.loadCode ++ (storeStepCode step.isIncrement slot ++ newValueCode step slot))
      (emitStepValue step name position) g := by
  refine (emitting_resolve hs position).bind fun found _ _ _ h => ?_
  obtain ⟨rfl, rfl, rfl⟩ := h
  refine (emitting_emit _ (label_notMem_loadCode found)).bind fun _ g₁ _ _ h => ?_
  obtain ⟨hframe₁, rfl⟩ := h
  refine (emitting_emitStep position ht step.isIncrement).bind fun _ g₂ _ _ h => ?_
  obtain ⟨hframe₂, rfl⟩ := h
  rw [← hframe₁, ← hframe₂]
  unfold newValueCode
  cases step.isBefore with
  | false => exact .pure ⟨rfl, rfl, by simp⟩
  | true =>
    obtain ⟨location, type, mutable⟩ := found
    rcases ht with ht | ht <;> cases ht
    · exact (emitting_emit g₂ (by simp)).bind fun _ _ _ _ h => .pure ⟨rfl, h.1, by rw [h.2]; rfl⟩
    · exact .pure ⟨rfl, rfl, rfl⟩

end Gen

/-- A step changes a number by one, and is stored if the variable may change. -/
theorem effects_step {L : Layout} {m : Machine} (step : Step) {slot : Slot}
    (ht : slot.type = .integer) {n : Int64}
    (hn : m.load (slot.address L (m.registers .rbp)) = n.toBitVec) :
    ∃ m', m.effects L (slot.loadCode ++ (Gen.storeStepCode step.isIncrement slot ++
        Gen.newValueCode step slot)) = some m' ∧
      m'.registers .rax = (if step.isBefore then n + step.delta else n).toBitVec ∧
      (if slot.mutable then
        m.store (slot.address L (m.registers .rbp)) (n + step.delta).toBitVec else m).Keeps m' := by
  have hdelta : n.toBitVec + BitVec.ofInt 64 (if step.isIncrement then 1 else -1) =
      (n + step.delta).toBitVec := by
    unfold Step.delta
    cases step.isIncrement <;> rfl
  -- The new value is in `%rcx` and, if it may be, in the slot.
  have hstore : ∃ m', m.effects L (slot.loadCode ++ Gen.storeStepCode step.isIncrement slot) =
      some m' ∧ m'.registers .rax = n.toBitVec ∧
      m'.registers .rcx = (n + step.delta).toBitVec ∧
      (if slot.mutable then m.store (slot.address L (m.registers .rbp))
        (n + step.delta).toBitVec else m).Keeps m' := by
    rw [effects_append, effects_loadCode (.inl ht), hn, Option.bind_some, Gen.storeStepCode, ht,
      ← hdelta]
    cases slot.mutable with
    | true =>
      let m₂ := (m.set .rax n.toBitVec).set .rcx
        (n.toBitVec + BitVec.ofInt 64 (if step.isIncrement then 1 else -1))
      refine ⟨m₂.store (slot.address L (m.registers .rbp)) (m₂.registers .rcx), ?_, rfl, rfl, rfl,
        rfl⟩
      change (m₂.effect L (.move (.register .rcx) (.memory slot.low))).bind _ = _
      rw [effect_store]
      rfl
    | false => exact ⟨_, rfl, rfl, rfl, rfl, rfl⟩
  obtain ⟨m₁, he, hrax, hrcx, hk⟩ := hstore
  rw [← List.append_assoc, effects_append, he, Option.bind_some, Gen.newValueCode, ht]
  cases step.isBefore with
  | true => exact ⟨_, rfl, hrcx, hk.memory, hk.base⟩
  | false => exact ⟨m₁, rfl, hrax, hk⟩

end ScriptLang
