import ScriptLang.Proofs.Evaluation.Keeping
import ScriptLang.Proofs.Machine.Realization
import ScriptLang.Proofs.Machine.Tracking
import ScriptLang.Proofs.Scope
import ScriptLang.Proofs.Tree.Nodes

/-!
# Code computes expressions

The code of an expression over integers and truth values leaves the word of its value,
keeps the variables what evaluation makes them, and traps exactly where evaluation fails.
-/

namespace ScriptLang

open Assembly Assembly.Machine

/-- An expression is built from integers, truth values and operators, and a name has a
property. -/
def words (p : String → Prop) : NodeProperty where
  expr
    | .integer .. | .boolean .. | .group .. | .unary .. | .binary .. => True
    | .name n _ => p n
    | _ => False
  stmt _ := True

/-- The word of a value of the type is in `%rax`, variables are held, and nothing else has
changed but what was taken of the frame. -/
structure Valued (L : Layout) (home : Generator) (p : String → Prop) (low high : Int)
    (m : Machine) (t : ValueType) (v : Value) (s' : Evaluation) (m' : Machine) : Prop where
  type : v.type = t
  word : v.word? = some (m'.registers .rax)
  held : ∀ name, p name → Held L s' home m' name
  confined : Confined L home p low high m m'

/-- Wherever the variables with a property are held and there is room, the code tracks the
evaluation. The names are looked up in `home`. -/
def Computes (L : Layout) (home : Generator) (p : String → Prop) (x : Eval Value)
    (g : Generator) (t : ValueType) (g' : Generator) (code : List Instruction) : Prop :=
  t.IsWord ∧ ∀ s m high, g'.frame.used ≤ high →
    Room L home p (m.registers .rbp) g.frame.used high →
    (∀ name, p name → Held L s home m name) →
    Tracks L code m (Confined L home p g.frame.used g'.frame.used m) (x s)
      (Valued L home p g.frame.used g'.frame.used m t)

variable {L : Layout} {home g g' : Generator} {p : String → Prop} {s s' : Evaluation}
  {m m' : Machine} {low high : Int} {t u : ValueType} {v : Value} {name : String}
  {code : List Instruction}

theorem Eval.read_of_find? {b : Binding} (hb : s.environment.find? name = some b)
    (position : Position) : Eval.read name position s = .ok b.value s := by
  have hget : (get : Eval Evaluation) s = .ok s s := rfl
  rw [Eval.read, bind_of_ok _ hget, hb]
  rfl

namespace Computes

/-- An instruction that makes a value the result. -/
theorem constant {i : Instruction} {w : BitVec 64} (hw : v.word? = some w)
    (hi : ∀ m : Machine, m.effect L i = some (m.set .rax w)) :
    Computes L home p (pure v) g v.type g' [i] := by
  refine ⟨Value.isWord_of_word? hw, fun s m high _ _ hheld => ?_⟩
  have hk : m.Keeps (m.set .rax w) := ⟨rfl, rfl⟩
  exact ⟨_, .of_effect (hi m), rfl, hw, fun name hp => (hheld name hp).of_keeps hk rfl,
    .of_keeps hk⟩

/-- The value of a variable is loaded from its slot. -/
theorem read {slot : Slot} (hp : p name) (hslot : home.find? name = some slot)
    (ht : slot.type.IsWord) (position : Position) :
    Computes L home p (Eval.read name position) g slot.type g' slot.loadCode := by
  refine ⟨ht, fun s m high _ _ hheld => ?_⟩
  obtain ⟨b, slot', hb, hs, hty, -, hw⟩ := hheld name hp
  obtain rfl : slot' = slot := Option.some.inj (hs.symm.trans hslot)
  have hk : m.Keeps (m.set .rax (m.load (slot'.address L (m.registers .rbp)))) := ⟨rfl, rfl⟩
  rw [Eval.read_of_find? hb position]
  exact ⟨_, .of_effects (effects_loadCode ht), (congrArg Typing.type hty).symm, hw,
    fun name hp => (hheld name hp).of_keeps hk rfl, .of_keeps hk⟩

end Computes

/-- The address of the slot that is handed out next for a word. -/
theorem Frame.address_fresh {f : Frame} (ht : t.IsWord) (mutable : Bool) (base : BitVec 64) :
    (f.fresh t mutable).address L base = base + BitVec.ofInt 64 (-(f.used + 8)) := by
  rcases ht with rfl | rfl <;> rfl

namespace Valued

/-- A result is kept in a fresh slot. -/
theorem spill {f : Frame} (h : Valued L home p low f.used m t v s m') (ht : t.IsWord)
    (hlow : low ≤ f.used) (hroom : Room L home p (m.registers .rbp) f.used high)
    (hhigh : f.used + 8 ≤ high) :
    ∃ m'', Finishes L (f.fresh t true).storeCode m' m'' ∧
      v.word? = some (m''.load ((f.fresh t true).address L (m''.registers .rbp))) ∧
      (∀ name, p name → Held L s home m'' name) ∧ Confined L home p low (f.used + 8) m m'' := by
  rw [← h.confined.base] at hroom
  have hstore : m'.effects L (f.fresh t true).storeCode = some _ := effects_storeCode ht
  rw [Frame.address_fresh ht] at hstore
  refine ⟨_, .of_effects hstore, ?_, fun name hp => (h.held name hp).spill hp hroom hhigh _,
    h.confined.trans (.spill f.used _) hlow (by omega)⟩
  rw [Frame.address_fresh ht, h.word]
  exact congrArg some (m'.load_store _ _).symm

/-- An operator on words has a value that is one. -/
theorem settle {o : Outcome} {objection : Option Cause} {code : List Instruction}
    (h : Realizes L code m' o) (ho : o.Follows objection t)
    (hheld : ∀ name, p name → Held L s home m' name) (hconfined : Confined L home p low high m m')
    (position : Position) :
    Tracks L code m' (Confined L home p low high m) (Eval.settle position o s)
      (Valued L home p low high m t) := by
  refine (Tracks.settle h ho position).weaken (fun _ hk => hconfined.keeps hk)
    fun v s' m'' h => ?_
  obtain ⟨htype, hword, henv, hk⟩ := h
  exact ⟨htype, hword, fun name hp => (hheld name hp).of_keeps hk henv, hconfined.keeps hk⟩

end Valued

namespace Gen

variable {call : Invocation} {laps : Nat} {e l r : Expr} {span : Span}

/-- Code for the expression computes it, from wherever it is generated. -/
def Compiles (L : Layout) (home : Generator) (p : String → Prop) (call : Invocation) (laps : Nat)
    (e : Expr) : Prop :=
  ∀ g : Generator, (∀ name, g.find? name = home.find? name) →
    Emitting (Computes L home p (Eval.evaluate call laps e) g) (expression e) g

theorem Compiles.binary (o : BinaryOperator) (hl : Compiles L home p call laps l)
    (hr : Compiles L home p call laps r) : Compiles L home p call laps (.binary o l r span) := by
  intro g hg
  rw [expression, Eval.evaluate]
  refine (hl g hg).bind fun t g₁ c₁ he₁ hl => ?_
  refine (emitting_spill t g₁).bind fun slot g₂ c₂ he₂ hs => ?_
  obtain ⟨rfl, hused₂, rfl⟩ := hs
  have hg₂ : ∀ name, g₂.find? name = home.find? name := fun name =>
    (he₂.find? name).trans ((he₁.find? name).trans (hg name))
  refine (hr g₂ hg₂).bind fun u g₃ c₃ he₃ hr => ?_
  refine (emitting_emitBinary g₃ span.start o hl.1 hr.1).weaken fun w g₄ c₄ he₄ h => ?_
  obtain ⟨rfl, hframe, ho⟩ := h
  have hsize : (t.size : Int) = 8 := by
    rcases hl.1 with rfl | rfl <;> rfl
  rw [hsize] at hused₂
  have hused₁ := he₁.used
  have hused₃ := he₃.used
  refine ⟨o.isWord_resultType hl.1 hr.1, fun s m high hhigh hroom hheld => ?_⟩
  rw [hframe] at hhigh ⊢
  refine .bind he₁ (he₂.trans (he₃.trans he₄))
    ((hl.2 s m high (by omega) hroom hheld).weaken (fun _ hc => hc.mono (by omega))
      fun _ _ _ h => h) fun lv s₁ m₁ hlv => ?_
  -- The left operand is kept in the frame while the right one is computed.
  have hroom₁ := hroom.shrink hused₁
  obtain ⟨m₂, hstore, hlw, hheld₂, hconf₂⟩ := hlv.spill hl.1 hused₁ hroom₁ (by omega)
  rw [← hconf₂.base] at hroom₁
  rw [← hused₂] at hconf₂
  refine .after he₂ (he₃.trans he₄) hstore (.bind he₃ he₄
    ((hr.2 s₁ m₂ high hhigh (hroom₁.shrink he₂.used) hheld₂).weaken
      (fun _ hc => hconf₂.trans hc (by omega) hused₃) fun _ _ _ h => h) fun rv s₂ m₃ hrv => ?_)
  have hkept : lv.word? =
      some (m₃.load ((g₁.frame.fresh t true).address L (m₃.registers .rbp))) := by
    rw [hlw, Frame.address_fresh hl.1, Frame.address_fresh hl.1, hrv.confined.base,
      hrv.confined.load_spilled hroom₁ (by omega) hused₃ hhigh]
  have hfollows := o.apply_follows lv rv
  rw [hlv.type, hrv.type] at hfollows
  exact Valued.settle (ho L m₃ lv rv hlv.type hrv.type hkept hrv.word) hfollows hrv.held
    (hconf₂.trans hrv.confined (by omega) hused₃) span.start

theorem Compiles.unary {o : UnaryOperator} (hplain : ∀ s, o ≠ .step s)
    (h : Compiles L home p call laps e) : Compiles L home p call laps (.unary o e span) := by
  intro g hg
  have hunary : Emitting (Computes L home p (do
      Eval.settle span.start (o.apply (← Eval.evaluate call laps e))) g) (do
      emitUnary o (← expression e) span.start) g := by
    refine (h g hg).bind fun t g₁ c₁ he₁ h => ?_
    refine (emitting_emitUnary g₁ span.start hplain h.1).weaken fun u g₂ c₂ he₂ ho => ?_
    obtain ⟨rfl, hframe, ho⟩ := ho
    refine ⟨o.isWord_resultType h.1, fun s m high hhigh hroom hheld => ?_⟩
    rw [hframe] at hhigh ⊢
    refine .bind he₁ he₂ (h.2 s m high hhigh hroom hheld) fun v s₁ m₁ hv => ?_
    have hfollows := o.apply_follows v
    rw [hv.type] at hfollows
    exact Valued.settle (ho L m₁ v hv.type hv.word) hfollows hv.held hv.confined span.start
  cases o with
  | step s => exact absurd rfl (hplain s)
  | _ => exact hunary

/-- Where a step of a number leads. -/
theorem stepNamed_of_integer (step : Step) {b : Binding} (hb : s.environment.find? name = some b)
    (n : Int64) (position : Position) :
    ∃ s', Eval.stepNamed step (some name) (.integer n) position s =
        .ok (.integer (if step.isBefore then n + step.delta else n)) s' ∧
      if b.mutable then s.environment.update name (.integer (n + step.delta)) = .ok s'.environment
      else s'.environment = s.environment := by
  have hget : (get : Eval Evaluation) s = .ok s s := rfl
  have hu : s.environment.update name (.integer (n + step.delta)) =
      if b.mutable then .ok ⟨Environment.storeIn name (.integer (n + step.delta))
        s.environment.scopes⟩ else .error .immutable := by
    rw [Environment.update, hb]
  have hstore : ∃ s', Eval.store name (.integer (n + step.delta)) position s = .ok () s' ∧
      if b.mutable then s.environment.update name (.integer (n + step.delta)) = .ok s'.environment
      else s'.environment = s.environment := by
    rw [Eval.store, bind_of_ok _ hget, hu]
    cases b.mutable with
    | true => exact ⟨_, rfl, rfl⟩
    | false => exact ⟨_, rfl, rfl⟩
  obtain ⟨s', hs', henv⟩ := hstore
  refine ⟨s', ?_, henv⟩
  change (Eval.store name (.integer (n + step.delta)) position >>= fun _ =>
    pure (if step.isBefore then Value.integer (n + step.delta) else .integer n)) s = _
  rw [bind_of_ok _ hs', ← apply_ite Value.integer]
  rfl

theorem Compiles.step (step : Step) (hwords : ∀ name, p name → ∃ slot,
      home.find? name = some slot ∧ slot.type.IsWord) (hp : p name)
    (hn : e.ungroup.name? = some name) :
    Compiles L home p call laps (.unary (.step step) e span) := by
  intro g hg
  obtain ⟨slot, hslot, ht⟩ := hwords name hp
  obtain ⟨place, hplace⟩ := Eval.evaluate_of_name? call laps e hn
  rw [expression, Eval.evaluate, hn, hplace]
  have hs : g.find? name = some slot := by rw [hg, hslot]
  refine (emitting_emitStepValue span.start step ht hs).weaken fun t g' code he h => ?_
  obtain ⟨rfl, hframe, rfl⟩ := h
  refine ⟨ht, fun s m high hhigh hroom hheld => ?_⟩
  have hname := hheld name hp
  obtain ⟨b, slot', hb, hs', hty, -, hw⟩ := hname
  obtain rfl : slot' = slot := Option.some.inj (hs'.symm.trans hslot)
  have hbt : b.value.type = slot'.type := (congrArg Typing.type hty).symm
  have hbm : b.mutable = slot'.mutable := (congrArg Typing.mutable hty).symm
  rw [bind_of_ok _ (Eval.read_of_find? hb place)]
  rcases ht with hi | hbool
  · obtain ⟨n, hn⟩ := Value.exists_integer (hbt.trans hi)
    rw [hn] at hw ⊢
    obtain ⟨m', hrun, hrax, hk⟩ := effects_step step hi (Option.some.inj hw).symm
    obtain ⟨s', hstep, henv⟩ := stepNamed_of_integer step hb n span.start
    rw [hstep]
    refine ⟨m', .of_effects hrun, ?_⟩
    rw [hframe]
    rw [hbm] at henv
    cases hm : slot'.mutable with
    | true =>
      rw [hm, if_pos rfl] at henv hk
      refine ⟨hi.symm, congrArg some hrax.symm, fun other hq => ?_, ?_⟩
      · exact (Held.store hroom hp hq hslot (hheld name hp) hi henv rfl
          (hheld other hq)).of_keeps hk rfl
      · exact (Confined.store hp hslot _).keeps hk
    | false =>
      rw [hm, if_neg Bool.false_ne_true] at henv hk
      exact ⟨hi.symm, congrArg some hrax.symm, fun other hq => (hheld other hq).of_keeps hk henv,
        .of_keeps hk⟩
  · obtain ⟨c, hc⟩ := Value.exists_boolean (hbt.trans hbool)
    have hcode : slot'.loadCode ++ (storeStepCode step.isIncrement slot' ++
        newValueCode step slot') = slot'.loadCode := by
      simp [storeStepCode, newValueCode, hbool]
    have hk : m.Keeps (m.set .rax (m.load (slot'.address L (m.registers .rbp)))) := ⟨rfl, rfl⟩
    rw [hcode, hc]
    rw [hc] at hw
    exact ⟨_, .of_effects (effects_loadCode (.inr hbool)), hbool.symm, hw,
      fun name hp => (hheld name hp).of_keeps hk rfl, .of_keeps hk⟩

/-- A step of anything else does nothing. -/
theorem Compiles.step_of_none (step : Step) (hn : e.ungroup.name? = none)
    (h : Compiles L home p call laps e) :
    Compiles L home p call laps (.unary (.step step) e span) := by
  intro g hg
  have hstep : ∀ old, Eval.stepNamed step none old span.start = pure old := fun _ => rfl
  rw [expression, Eval.evaluate, hn]
  simp only [hstep, bind_pure]
  exact h g hg

theorem words_name? : ∀ {e : Expr}, (words p).InExpr e → e.ungroup.name? = some name → p name
  | .name _ _, h, hn => by
    cases hn
    exact h
  | .group _ _, h, hn => words_name? h.2 hn

theorem label_notMem_constantCode (n : Int64) (l : Label) : .label l ∉ [constantCode n] := by
  unfold constantCode
  split <;> simp

/-- Code for an expression over words computes it. -/
theorem compiles (hwords : ∀ name, p name → ∃ slot,
      home.find? name = some slot ∧ slot.type.IsWord) :
    ∀ e, (words p).InExpr e → Compiles L home p call laps e
  | .integer n _, _ => fun g _ => by
    rw [expression, Eval.evaluate]
    refine (emitting_emit g (label_notMem_constantCode n)).bind fun _ g' _ _ h => ?_
    obtain ⟨hframe, rfl⟩ := h
    exact .pure (.constant rfl fun m => effect_constantCode n)
  | .boolean b _, _ => fun g _ => by
    rw [expression, Eval.evaluate]
    refine (emitting_emit g (by simp)).bind fun _ g' _ _ h => ?_
    obtain ⟨hframe, rfl⟩ := h
    exact .pure (.constant rfl fun m => effect_truth b)
  | .name n span, h => fun g hg => by
    obtain ⟨slot, hslot, ht⟩ := hwords n h
    rw [expression, Eval.evaluate]
    refine (emitting_resolve ((hg n).trans hslot) span.start).bind fun found _ _ _ h => ?_
    obtain ⟨rfl, rfl, rfl⟩ := h
    refine (emitting_emit _ (label_notMem_loadCode found)).bind fun _ g' _ _ hc => ?_
    obtain ⟨hframe, rfl⟩ := hc
    refine .pure ?_
    simp only [List.append_nil, List.nil_append]
    exact .read h hslot ht span.start
  | .group e _, h => fun g hg => by
    rw [expression, Eval.evaluate]
    exact compiles hwords e h.2 g hg
  | .binary o l r _, h => .binary o (compiles hwords l h.2.1) (compiles hwords r h.2.2)
  | .unary (.step step) e _, h => by
    cases hn : e.ungroup.name? with
    | some name => exact .step step hwords (words_name? h.2 hn) hn
    | none => exact .step_of_none step hn (compiles hwords e h.2)
  | .unary .not e _, h | .unary .negate e _, h | .unary .plus e _, h =>
    .unary (by rintro _ ⟨⟩) (compiles hwords e h.2)
  | .float .., h | .string .., h => h.elim
  | .call .., h | .range .., h | .run ⟨_, _⟩ _, h => h.1.elim

end Gen

namespace Held

theorem type_isWord (h : Held L s g m name) :
    ∃ slot, g.find? name = some slot ∧ slot.type.IsWord := by
  obtain ⟨b, slot, -, hslot, hty, -, hw⟩ := h
  refine ⟨slot, hslot, ?_⟩
  rw [show slot.type = b.value.type from congrArg Typing.type hty]
  exact Value.isWord_of_word? hw

/-- The code generated for an expression over variables that are held. If the expression has
a value, the code ends with its word in `%rax`; the variables that were held are held as
evaluation leaves them, and other memory is only written in the part of the frame that was
taken. The traps of division and modulo are reached exactly where evaluation fails so, and
other memory is not written on the way to them either. -/
theorem expression_computes (call : Invocation) (laps : Nat) {e : Expr}
    (he : (words (Held L s g m)).InExpr e) :
    ∃ t g', ∃ code : List Instruction, Gen.expression e g = .ok t g' ∧
      g'.code = g.code ++ code ∧
      (Room L g (Held L s g m) (m.registers .rbp) g.frame.used g'.frame.used →
        (∀ v s', Eval.evaluate call laps e s = .ok v s' →
          ∃ m', Finishes L code m m' ∧ v.word? = some (m'.registers .rax) ∧
            (∀ name, Held L s g m name → Held L s' g' m' name) ∧
            Confined L g (Held L s g m) g.frame.used g'.frame.used m m') ∧
        ((∃ m', Leaves L code m (.trap .divisionByZero) m') ↔ ∃ position s',
          Eval.evaluate call laps e s = .error (.fault ⟨.divisionByZero, position⟩) s') ∧
        ((∃ m', Leaves L code m (.trap .moduloByZero) m') ↔ ∃ position s',
          Eval.evaluate call laps e s = .error (.fault ⟨.moduloByZero, position⟩) s') ∧
        ∀ l m', Leaves L code m l m' →
          Confined L g (Held L s g m) g.frame.used g'.frame.used m m') := by
  have hcompiles : Gen.Compiles L g (Held L s g m) call laps e :=
    Gen.compiles (fun name h => h.type_isWord) e he
  obtain ⟨t, g', code, hg, hemits, hcomputes⟩ := hcompiles g fun _ => rfl
  refine ⟨t, g', code, hg, hemits.appended, fun hroom => ?_⟩
  have htracks := hcomputes.2 s m g'.frame.used (Int.le_refl _) hroom fun _ h => h
  refine ⟨fun v s' hv => ?_, htracks.leaves_iff fun c => ?_, htracks.leaves_iff fun c => ?_,
    fun l m' hl => htracks.trapped hl⟩
  · rw [hv] at htracks
    obtain ⟨m', hrun, hvalued⟩ := htracks
    refine ⟨m', hrun, hvalued.word, fun name h => ?_, hvalued.confined⟩
    obtain ⟨b, slot, hb, hslot, h⟩ := hvalued.held name h
    exact ⟨b, slot, hb, (hemits.find? name).trans hslot, h⟩
  · cases c <;> simp [Cause.trap?]
  · cases c <;> simp [Cause.trap?]

/-- Dividing by what a step left: `x++ / (x - 6)`, where `x` is a global that is 7. -/
theorem expression_computes_step :
    let s (n : Int64) : Evaluation :=
      { Evaluation.new with environment := Environment.new.declare "x" (.integer n) .int true }
    let g : Generator :=
      { Generator.new with globals := NameMap.empty.insert "x" ⟨.cell "x", .integer, true⟩ }
    let L : Layout := fun _ => 4096
    let m : Machine := Machine.store ⟨fun _ => 65536, .undefined, fun _ => 0⟩ 4096 7
    let x : Expr := .name "x" default
    let e : Expr := .binary (.arithmetic .divide)
      (.unary (.step .postIncrement) x default)
      (.group (.binary (.arithmetic .subtract) x (.integer 6 default) default) default) default
    (words (Held L (s 7) g m)).InExpr e ∧ Room L g (Held L (s 7) g m) 65536 0 16 ∧
      ∃ g', ∃ code : List Instruction, Gen.expression e g = .ok .integer g' ∧
        g'.code = g.code ++ code ∧ ∃ m', Finishes L code m m' ∧ m'.registers .rax = 3 ∧
        Held L (s 8) g' m' "x" := by
  intro s g L m x e
  have hx : Held L (s 7) g m "x" := ⟨_, _, rfl, rfl, rfl, .inl rfl,
    congrArg some (Machine.load_store _ 4096 7).symm⟩
  have hname : ∀ name, Held L (s 7) g m name → name = "x" := by
    rintro name ⟨b, -, hb, -⟩
    refine Classical.byContradiction fun hne => ?_
    have hnone : (s 7).environment.find? name = none :=
      (Environment.find?_bind (List.cons_ne_nil _ _)).trans (if_neg hne)
    rw [hnone] at hb
    cases hb
  have he : (words (Held L (s 7) g m)).InExpr e :=
    ⟨trivial, ⟨trivial, hx⟩, trivial, trivial, hx, trivial⟩
  have hroom : Room L g (Held L (s 7) g m) 65536 0 16 := by
    refine ⟨fun h h' hne => absurd ((hname _ h).trans (hname _ h').symm) hne, ?_, by decide⟩
    rintro name slot h hs a ha ⟨offset, hlow, hhigh, rfl⟩
    obtain rfl := hname name h
    cases hs
    change (65536 + BitVec.ofInt 64 offset - 4096).toNat < 8 at ha
    have hbase : (65536 : BitVec 64).toNat = 65536 := rfl
    have hcell : (4096 : BitVec 64).toNat = 4096 := rfl
    rw [BitVec.toNat_sub, BitVec.toNat_add, BitVec.toNat_ofInt, hbase, hcell] at ha
    omega
  have heval : Eval.evaluate (fun _ _ _ => Eval.outOfFuel) 0 e (s 7) = .ok (.integer 3) (s 8) := rfl
  obtain ⟨t, g', code, hg, hcode, hrun⟩ :=
    expression_computes (fun _ _ _ => Eval.outOfFuel) 0 he
  have ht : t = .integer ∧ g'.frame.used = 16 := by
    cases hg
    exact ⟨rfl, rfl⟩
  obtain ⟨rfl, hused⟩ := ht
  rw [hused] at hrun
  obtain ⟨m', hfinishes, hw, hheld, -⟩ := (hrun hroom).1 _ _ heval
  exact ⟨he, hroom, g', code, hg, hcode, m', hfinishes, (Option.some.inj hw).symm, hheld "x" hx⟩

end Held

end ScriptLang
