import ScriptLang.Proofs.Codegen.Settling.Operation

/-!
# Expressions and statements initialise what they read

A part that control may skip starts where a label behind it falls back to. What was run in
front of the part is enough for what stands behind it, since no name that strayed is used.
-/

namespace ScriptLang

open Assembly

/-- An instruction of a call falls through. -/
theorem Preparing.through {i : Instruction} (h : Preparing i) :
    i.placed? = none ∧ i.target? = none ∧ i.falls = true := by
  refine ⟨h.placed, h.target, ?_⟩
  unfold Instruction.falls
  split
  · cases h.target
  · exact absurd rfl h.leaves.2
  · rfl

namespace Gen

variable {α β : Type} {k k' k₁ k₂ k₃ : Bindings} {p : α → Generator → Set Instruction → Prop}
  {g : Generator} {I : Set Instruction}

/-! ## Declarations, assignments and jumps -/

theorem settled_emitFailedCall (cause : Cause) (type : ValueType) (position : Position) :
    Settled k k (emitFailedCall cause type position) g I :=
  (settles_report cause position).andThen fun _ _ _ =>
    (settles_emitZero type).andThen fun _ _ _ => .pure trivial

theorem proper_storeCode {slot : Slot} (h : slot.Filled g I) :
    ∀ i ∈ slot.storeCode, Proper g I i := by
  have hlow := List.forall_mem_singleton.mpr h.low
  unfold Slot.storeCode
  split
  · exact proper_straight rfl hlow
  · next ht => exact proper_straight rfl (List.forall_mem_cons.mpr
      ⟨h.low, List.forall_mem_singleton.mpr (h.high ht)⟩)
  · exact proper_straight rfl hlow

theorem proper_store {slot : Slot} (h : slot.Filled g I) (r : Register) :
    ∀ i ∈ [Instruction.move (.register r) (.memory slot.low)], Proper g I i :=
  proper_straight rfl (List.forall_mem_singleton.mpr h.low)

/-- The result is converted and stored in a variable that has a value. -/
theorem settled_storeCoerced {slot : Slot} (h : slot.Filled g I) (source target : ValueType)
    (position : Position) :
    Settled k k (do
      emitCoercion source target position
      emit slot.storeCode) g I :=
  (settles_emitCoercion source target position).bind fun _ _ _ _ hb _ =>
    settled_emit (proper_storeCode (h.behind hb))

theorem settled_emitDeclaration (name : String) (constant : Bool) (type : Option DeclaredType)
    (value : Option ValueType) (position : Position) :
    Settled k (k.declare name) (emitDeclaration none name constant type value position) g I := by
  refine (settles_declare name _ _).bind fun slot g₁ O _ _ hs => ?_
  obtain ⟨-, hblank, hn⟩ := hs
  have hfill : ∀ {g₂ : Generator} {M : Set Instruction}, g₂.find? name = g₁.find? name →
      Spares g₁ g₂ → Settled (k.bind name) (k.declare name) (emit slot.storeCode) g₂ M :=
    fun hfind hspare => (settles_fillNamed (hspare slot hblank) (hfind.trans hn)
      slot.filledBy_storeCode).settled
  cases value with
  | some v =>
    exact (settles_emitCoercion v slot.type position).bind fun _ _ _ hx _ hspare =>
      hfill (((yields_emitCoercion v slot.type position _).sameNames hx).find? name) hspare
  | none =>
    exact (settles_emitZero slot.type).bind fun _ _ _ hx _ hspare =>
      hfill (((quiet_emitZero slot.type).sameNames hx).find? name) hspare

/-- What is met has not strayed. -/
theorem of_meet {name : String} (h : k.meet name = some k') : name ∉ k.strayed ∧ k' = k := by
  unfold Bindings.meet at h
  split at h
  · cases h
  · next hn => exact ⟨hn, (Option.some.inj h).symm⟩

theorem settled_emitAssignment {target : String} (hk : k.meet target = some k')
    (operator : AssignOperator) (value : Option ValueType) (position : Position) :
    Settled k k' (emitAssignment target operator value position) g I := by
  obtain ⟨hmet, rfl⟩ := of_meet hk
  refine .bindGet ?_
  cases hf : g.find? target with
  | none => exact (settles_report _ position).settled
  | some slot =>
    refine .known fun hr => ?_
    have hslot := hr.settled target hmet slot hf
    cases operator with
    | step step =>
      exact (settled_emit (proper_loadCode hslot)).bind fun _ _ _ _ hb _ =>
        settled_emitStep target (hslot.behind hb) _ position
    | set =>
      dsimp only
      split
      · exact settled_storeCoerced hslot _ _ position
      · exact (settles_report _ position).settled
    | combine o =>
      dsimp only
      split
      · refine (settles_spill _).bind fun right _ _ _ h₁ hright => ?_
        refine (settled_emit (proper_loadCode (hslot.behind h₁))).bind fun _ _ _ _ h₂ _ => ?_
        refine (settles_spill _).bind fun left _ _ _ h₃ hleft => ?_
        have hright := hright.2.behind (h₂.trans h₃)
        refine (settled_emit (proper_loadCode hright)).bind fun _ _ _ _ h₄ _ => ?_
        refine (settled_emitBinary _ (hleft.2.behind h₄) _ position).bind
          fun type _ _ _ h₅ _ => ?_
        have hslot := hslot.behind ((((h₁.trans h₂).trans h₃).trans h₄).trans h₅)
        exact settled_storeCoerced hslot type slot.type position
      · exact (settles_report _ position).settled

theorem settled_emitPrint (type : ValueType) (newline : Bool) :
    Settled k k (emitPrint type newline) g I := by
  have hend : ∀ g I, Settled k k (emit [.callLibrary .printf]) g I := fun g I =>
    settled_emit (proper_bare rfl rfl)
  cases type with
  | boolean | string =>
    exact (settled_emitText _).andThen fun _ _ _ =>
      (settled_emit (proper_bare rfl rfl)).andThen fun _ _ _ => hend _ _
  | _ => exact (settled_emit (proper_bare rfl rfl)).andThen fun _ _ _ => hend _ _

/-- A jump to a label that jumps may lead to. -/
theorem settled_jump {l : Label} (h : g.Exit l) : Settled k k.jump (emit [.jump l]) g I := by
  rintro hr _ _ ⟨⟩
  exact ⟨_, _, .jumping hr (.inr rfl) fun _ _ hJ => hJ.exits rfl l h, trivial⟩

/-- A jump to the end of a function. -/
theorem settled_leave (symbol : String) :
    Settled k k.jump (emit [.jump (.epilogue symbol)]) g I := by
  rintro hr _ _ ⟨⟩
  refine ⟨_, _, .jumping hr (.inr rfl) fun _ _ hJ => ?_, trivial⟩
  rw [hJ.outside (.epilogue symbol) nofun]
  exact Set.empty_subset _

theorem settled_emitReturn (value : Option (ValueType × Position)) :
    Settled k k.jump (emitReturn value) g I := by
  refine .bindGet ?_
  cases he : g.topLevelExit with
  | some exit => exact settled_jump (.topLevel he)
  | none =>
    cases value with
    | none => exact (settles_emitZero _).andThen fun _ _ _ => settled_leave _
    | some value =>
      dsimp only
      split
      · exact (settles_emitZero _).andThen fun _ _ _ => settled_leave _
      · exact (settles_emitCoercion _ _ _).andThen fun _ _ _ => settled_leave _

/-- A jump to one of the labels of the innermost loop. -/
theorem settled_emitLoopJump {target : LoopLabels → Label}
    (h : ∀ {g : Generator} {labels rest}, g.loops = labels :: rest → g.Exit (target labels)) :
    Settled k k.jump (emitLoopJump target) g I := by
  refine .bindGet ?_
  cases hl : g.loops with
  | cons labels rest => exact settled_jump (h hl)
  | nil =>
    dsimp only
    cases he : g.topLevelExit with
    | some exit => exact settled_jump (.topLevel he)
    | none => exact (settles_emitZero _).andThen fun _ _ _ => settled_leave _

theorem settles_emitStepCheck :
    Settles k k (fun slot g' O => slot.Filled g' O) emitStepCheck g I :=
  (settled_emit (by simp [proper_iff, Instruction.falls])).andThen fun _ _ _ =>
    (settles_spill _).weaken fun _ _ _ h => h.2

/-! ## Scopes, branches and loops -/

theorem run_inScope {x : Gen α} {a : α} {g' : Generator} (h : inScope x g = .ok a g') :
    ∃ g₁, x g.pushed = .ok a g₁ ∧ g' = g₁.popped := by
  obtain ⟨_, g₁, hx, hg⟩ := bind_ok.mp (show (x >>= fun a => (do
    modifyFrame .pop
    return a)) g.pushed = _ from h)
  cases hg
  exact ⟨g₁, hx, rfl⟩

theorem Settles.inScope {x : Gen α} (hx : Settled k k' x g.pushed I) :
    Settled k (k.leaving k') (inScope x) g I := by
  intro hr a g' h
  obtain ⟨g₁, hx', rfl⟩ := run_inScope h
  obtain ⟨c, O, hc, -⟩ := hx hr.pushed a g₁ hx'
  exact ⟨c, O, hc.scope hr id, trivial⟩

/-- What the body of a loop made. -/
theorem Settles.runLoop {body : Gen Unit} {labels : LoopLabels}
    (hb : Settled k k' body (g.looping labels) I) (hr : Ready k g I) {f : Unit → Gen β}
    {b : β} {g' : Generator} (h : (inLoop labels body >>= f) g = .ok b g') :
    ∃ g₁ c O, Passes (fun _ => True) k k' (g.looping labels) g₁ I c O ∧
      f () g₁.looped = .ok b g' := by
  obtain ⟨_, g₂, h', h⟩ := bind_ok.mp h
  change (body >>= fun _ => modify fun g => { g with loops := g.loops.tail })
    (g.looping labels) = _ at h'
  obtain ⟨_, g₁, c, O, hc, -, ht⟩ := hb.run (hr.looping labels) h'
  cases ht
  exact ⟨g₁, c, O, hc, h⟩

theorem jumpIfFalse_eq (type : ValueType) (l : Label) :
    type.jumpIfFalse l =
      type.truthCode ++ [Instruction.test .rax] ++ [Instruction.jumpIf .e l] := by
  rw [ValueType.jumpIfFalse, List.append_assoc]
  rfl

theorem proper_testCode (type : ValueType) :
    ∀ i ∈ type.truthCode ++ [Instruction.test .rax], Proper g I i :=
  List.forall_mem_append.mpr ⟨proper_truthCode type, proper_bare rfl rfl⟩

theorem settled_emitBranch {condition : Gen ValueType} {thenBody elseBody : Gen Unit}
    (hc : ∀ g I, Settled k k₁ condition g I) (ht : ∀ g I, Settled k₁ k₂ thenBody g I)
    (he : ∀ g I, Settled (k₁.skipping k₂) k₃ elseBody g I) :
    Settled k ((k₁.skipping k₂).skipping k₃) (emitBranch condition thenBody elseBody) g I := by
  rintro hr ⟨⟩ g' hx
  obtain ⟨type, g₁, c, M, h₁, -, hx⟩ := (hc g.numbered I).run hr.numbered hx
  -- Both labels are reached from places behind the condition.
  let P := fun J : Label → Set Instruction => ∀ mark, J (.numbered mark (g.labels + 1)) = M
  have hM : ∀ mark J, P J → J (.numbered mark (g.labels + 1)) = M := fun mark J hJ => hJ mark
  have b₁ : Passes P k₁ k₁ g₁ _ M _ M := .branching h₁.ready (proper_testCode type) .e
    fun J hJ => (hM .otherwise J hJ).subset
  rw [← jumpIfFalse_eq] at b₁
  obtain ⟨_, g₂, d, M₂, h₂, -, hx⟩ := (ht _ M).run b₁.ready hx
  have j₂ : Passes P k₂ k₂ g₂ _ M₂ _ _ := .jumping h₂.ready (.inl rfl)
    fun J hJ _ => (hM .endIf J hJ).subset.trans h₂.ran
  have s₁ := ((h₂.weaken fun _ _ => trivial).append j₂).skip b₁.ready (hM .otherwise)
  rw [g₂.emitting_emitting] at s₁
  obtain ⟨_, g₃, e, M₃, h₃, -, hx⟩ := (he _ M).run s₁.ready hx
  cases hx
  have s₂ := (h₃.weaken (P := P) fun _ _ => trivial).skip s₁.ready (hM .endIf)
  exact ⟨_, _, ((((h₁.weaken fun _ _ => trivial).append b₁).append s₁).append s₂).own
    (s := fun _ => M) fun _ h => h, trivial⟩

theorem settled_emitWhile {condition : Gen ValueType} {body : Gen Unit}
    (hc : ∀ g I, Settled k k₁ condition g I) (hb : ∀ g I, Settled k₁ k₂ body g I) :
    Settled k (k₁.skipping k₂) (emitWhile condition body) g I := by
  rintro hr ⟨⟩ g' hx
  let start : Label := .numbered .whileStart (g.labels + 1)
  let done : Label := .numbered .whileEnd (g.labels + 1)
  have hstart : Ready k (g.numbered.emitting [.label start]) I :=
    hr.numbered.emitting (List.forall_mem_singleton.mpr (modest_of_stores rfl rfl)) subset_rfl
  obtain ⟨type, g₁, c, M, h₁, -, hx⟩ := (hc _ I).run hstart hx
  -- The condition is run again from the start, and stands in front of the end.
  let P := fun J : Label → Set Instruction => J start = I ∧ J done = M
  have b₀ : Passes P k k g.numbered _ I _ I := .starting hr.numbered fun J hJ => hJ.1
  have b₁ : Passes P k₁ k₁ g₁ _ M _ M := .branching h₁.ready (proper_testCode type) .e
    fun J hJ => hJ.2.subset
  rw [← jumpIfFalse_eq] at b₁
  have hbody := fun g : Generator => hb (g.looping ⟨start, done⟩) M
  obtain ⟨g₂, d, M₂, h₂, hx⟩ := (hbody _).runLoop b₁.ready hx
  cases hx
  have l₂ := (h₂.weaken (P := P) fun _ _ => trivial).loop fun J hJ _ =>
    ⟨hJ.1.subset.trans h₁.ran, hJ.2.subset⟩
  have j₂ : Passes P k₂ k₂ g₂.looped _ M₂ _ _ := .jumping l₂.ready (.inl rfl)
    fun J hJ _ => hJ.1.subset.trans (h₁.ran.trans h₂.ran)
  have s₂ := (l₂.append j₂).skip b₁.ready fun J hJ => hJ.2
  rw [g₂.looped.emitting_emitting] at s₂
  exact ⟨_, _, (((b₀.append (h₁.weaken fun _ _ => trivial)).append b₁).append s₂).own
    (s := fun mark => if mark = .whileStart then I else M)
    fun J hJ => ⟨hJ .whileStart, hJ .whileEnd⟩, trivial⟩

theorem settled_emitDoWhile {condition : Gen ValueType} {body : Gen Unit}
    (hb : ∀ g I, Settled k.unjumped k₁ body g I)
    (hc : ∀ g I, Settled (k.unjumped.joining k₁) k₂ condition g I) :
    Settled k (k.rejoining ((k.unjumped.joining k₁).joining k₂)) (emitDoWhile body condition)
      g I := by
  rintro hr ⟨⟩ g' hx
  let start : Label := .numbered .doStart (g.labels + 1)
  let test : Label := .numbered .doCondition (g.labels + 1)
  let done : Label := .numbered .doEnd (g.labels + 1)
  have hn : Ready k.unjumped g.numbered I := hr.numbered.congr rfl rfl
  have hstart : Ready k.unjumped (g.numbered.emitting [.label start]) I :=
    hn.emitting (List.forall_mem_singleton.mpr (modest_of_stores rfl rfl)) subset_rfl
  have hbody := fun g : Generator => hb (g.looping ⟨test, done⟩) I
  obtain ⟨g₁, c, M₁, h₁, hx⟩ := (hbody _).runLoop hstart hx
  -- The test and the end fall back to what stands in front of what jumps may skip.
  let T := if k₁.jumped = true then I else M₁
  have hbehind : ∀ {P : (Label → Set Instruction) → Prop}, (∀ J, P J → J test = T) →
      (∀ J, P J → k₁.jumped = true → J done ⊆ I) →
      Passes P k.unjumped (k.unjumped.joining k₁) _ _ I (c ++ [.label test]) T :=
    fun htest hdone => ((h₁.weaken fun _ _ => trivial).loop fun J hJ hj =>
      ⟨by rw [htest J hJ]; exact (if_pos hj).subset, hdone J hJ hj⟩).join hstart htest
  have hT := hbehind (P := fun J => J test = T ∧ J done = ∅) (fun _ hJ => hJ.1)
    fun J hJ _ => hJ.2.subset.trans (Set.empty_subset _)
  obtain ⟨type, g₂, d, M₂, h₂, -, hx⟩ := (hc _ T).run hT.ready hx
  cases hx
  let E := if k₂.jumped = true then T else M₂
  let P := fun J : Label → Set Instruction => J start = I ∧ J test = T ∧ J done = E
  have hdone : ∀ J, P J → k₁.jumped = true → J done ⊆ I := by
    intro J hJ hj
    obtain ⟨_, -, -, -, hjumped⟩ := h₂.turns
    have hj₂ : k₂.jumped = true := hjumped (by
      unfold Bindings.joining
      split <;> exact hj)
    rw [hJ.2.2]
    exact ((if_pos hj₂).trans (if_pos hj)).subset
  have b₀ : Passes P k.unjumped k.unjumped g.numbered _ I _ I := .starting hn fun J hJ => hJ.1
  have b₂ : Passes P k₂ k₂ g₂ _ M₂ _ M₂ := .branching h₂.ready (proper_testCode type) .ne
    fun J hJ => hJ.1.subset.trans (hT.ran.trans h₂.ran)
  have s₂ := ((h₂.weaken (P := P) fun _ _ => trivial).append b₂).join hT.ready fun J hJ => hJ.2.2
  have hcode : type.truthCode ++ [Instruction.test .rax] ++ [Instruction.jumpIf .ne start] ++
      [Instruction.label done] =
        type.truthCode ++ [Instruction.test .rax, .jumpIf .ne start, .label done] := by
    simp only [List.append_assoc, List.cons_append, List.nil_append]
  rw [g₂.emitting_emitting, hcode] at s₂
  exact ⟨_, _, ((b₀.append (hbehind (fun J hJ => hJ.2.1) hdone)).append s₂).rejoin.own
    (s := fun mark => if mark = .doStart then I else if mark = .doCondition then T else E)
    fun J hJ => ⟨hJ .doStart, hJ .doCondition, hJ .doEnd⟩, trivial⟩

/-! ## Loops over ranges -/

/-- The slots of a loop over a range are filled. -/
structure LoopSlots.Filled (slots : LoopSlots) (g : Generator) (I : Set Instruction) : Prop where
  counter : slots.counter.Filled g I
  limit : slots.limit.Filled g I
  step : slots.step.Filled g I

theorem LoopSlots.Filled.mono {slots : LoopSlots} {g' : Generator} {O : Set Instruction}
    (h : slots.Filled g I) (hc : g.code.toList <+: g'.code.toList) (hI : I ⊆ O) :
    slots.Filled g' O :=
  ⟨h.counter.mono hc hI, h.limit.mono hc hI, h.step.mono hc hI⟩

theorem settles_bounds {start stop : Gen ValueType} {step : Gen Slot}
    (ha : ∀ g I, Settled k k₁ start g I) (hb : ∀ g I, Settled k₁ k₂ stop g I)
    (hc : ∀ g I, Settles k₂ k₃ (fun slot g' O => slot.Filled g' O) step g I)
    (p q : Position) (excludesStop descending : Bool) :
    Settles k k₃ (fun (slots : LoopSlots) g' O => slots.Filled g' O) (do
      emitCoercion (← start) .integer p
      let counter ← spill .integer
      emitCoercion (← stop) .integer q
      let limit ← spill .integer
      return ⟨counter, limit, ← step, excludesStop, descending⟩) g I :=
  (ha _ _).andThen fun _ _ _ => (settles_emitCoercion _ _ p).andThen fun _ _ _ =>
    (settles_spill _).bind fun _ _ _ _ _ hcounter => (hb _ _).bind fun _ _ _ _ h₁ _ =>
      (settles_emitCoercion _ _ q).bind fun _ _ _ _ h₂ _ =>
        (settles_spill _).bind fun _ _ _ _ h₃ hlimit => (hc _ _).bind fun _ _ _ _ h₄ hstep =>
          .pure ⟨hcounter.2.behind (((h₁.trans h₂).trans h₃).trans h₄), hlimit.2.behind h₄, hstep⟩

section

variable {P : (Label → Set Instruction) → Prop} {number : Nat} {slots : LoopSlots} {copy : Slot}
  {g' : Generator} {M : Set Instruction} {e : List Instruction}

/-- The check whether the end of a loop is reached. -/
def lapCheck (number : Nat) (slots : LoopSlots) : List Instruction :=
  [.label (.numbered .forStart number), .move (.memory slots.counter.low) (.register .rax),
    .compare (.memory slots.limit.low) .rax,
    .jumpIf slots.exitCondition (.numbered .forEnd number)]

/-- A lap starts with the check whether the end is reached. -/
theorem passes_lapCheck (hr : Ready k g I) (hs : slots.Filled g I)
    (hP : ∀ J, P J → J (.numbered .forStart number) = I ∧ J (.numbered .forEnd number) = I) :
    Passes P k k g (g.emitting (lapCheck number slots)) I (lapCheck number slots) I := by
  let g₁ := g.emitting [.label (.numbered .forStart number)]
  have b₁ : Passes P k k g g₁ I _ I := .starting hr fun J hJ => (hP J hJ).1
  have hb : Behind g I g₁ I := ⟨prefix_of_code b₁.code, subset_rfl⟩
  have hproper : ∀ i ∈ [Instruction.move (.memory slots.counter.low) (.register .rax),
      .compare (.memory slots.limit.low) .rax], Proper g₁ I i :=
    proper_straight rfl (List.forall_mem_cons.mpr ⟨(hs.counter.behind hb).low,
      List.forall_mem_singleton.mpr (hs.limit.behind hb).low⟩)
  have b₂ : Passes P k k g₁ _ I _ I := .branching b₁.ready hproper slots.exitCondition
    fun J hJ => (hP J hJ).2.subset
  have b := b₁.append b₂
  rw [g.emitting_emitting] at b
  exact b

/-- Laps with their labels: the body starts behind the head, and what is run in front of the
first lap is all that is run behind the last. -/
theorem passes_laps {kc kx : Bindings} {gb : Generator} {O : Set Instruction} (hr : Ready k g I)
    (hs : slots.Filled g I)
    (head : Passes P k kc g (g.emitting (lapHead number slots copy)) I
      (lapHead number slots copy) M)
    (body : Passes (fun _ => True) kc kx ((g.emitting (lapHead number slots copy)).looping
      ⟨.numbered .forNext number, .numbered .forEnd number⟩) gb M e O)
    (hP : ∀ J, P J → J (.numbered .forStart number) = I ∧ J (.numbered .forNext number) = M ∧
      J (.numbered .forEnd number) = I) :
    ∃ c, Passes P k (k.skipping kx) g (gb.looped.emitting (lapTail number slots)) I c I := by
  have l := (body.weaken (P := P) fun _ _ => trivial).loop fun J hJ _ =>
    ⟨(hP J hJ).2.1.subset, (hP J hJ).2.2.subset.trans head.ran⟩
  let g₁ := gb.looped.emitting [.label (.numbered .forNext number)]
  have b₁ : Passes P k _ g g₁ I _ M :=
    head.append (l.skip head.ready fun J hJ => (hP J hJ).2.1)
  have hb : Behind g I g₁ M := ⟨prefix_of_code b₁.code, b₁.ran⟩
  have hproper : ∀ i ∈ [Instruction.move (.memory slots.counter.low) (.register .rax),
      .integer (if slots.descending then .subtract else .add) (.memory slots.step.low) .rax],
      Proper g₁ M i :=
    proper_straight rfl (List.forall_mem_cons.mpr ⟨(hs.counter.behind hb).low,
      List.forall_mem_singleton.mpr (hs.step.behind hb).low⟩)
  have b₂ : Passes P _ _ _ _ M _ M := .branching b₁.ready hproper .o
    fun J hJ => (hP J hJ).2.2.subset.trans head.ran
  have hcounter := (hs.counter.behind hb).mono (prefix_of_code b₂.code) subset_rfl
  have b₃ : Passes P _ _ _ _ M [.move (.register .rax) (.memory slots.counter.low)] M :=
    .proper b₂.ready (proper_store hcounter .rax)
  have j : Passes P _ _ _ _ M _ _ := .jumping b₃.ready (.inl rfl)
    fun J hJ _ => (hP J hJ).1.subset.trans head.ran
  have s := ((((b₁.append b₂).append b₃).append j)).skip hr fun J hJ => (hP J hJ).2.2
  rw [Generator.emitting_emitting, Generator.emitting_emitting, Generator.emitting_emitting,
    Generator.emitting_emitting] at s
  exact ⟨_, s⟩

/-- What the laps of a loop made behind their head. -/
theorem run_emitLaps {kc kx : Bindings} {body : Gen Unit} (hb : ∀ g I, Settled kc kx body g I)
    (hr : Ready kc (g.emitting (lapHead number slots copy)) M)
    (h : emitLaps number slots body copy g = .ok () g') :
    ∃ gb e O, Passes (fun _ => True) kc kx ((g.emitting (lapHead number slots copy)).looping
        ⟨.numbered .forNext number, .numbered .forEnd number⟩) gb M e O ∧
      g' = gb.looped.emitting (lapTail number slots) := by
  have hbody := fun g : Generator =>
    hb (g.looping ⟨.numbered .forNext number, .numbered .forEnd number⟩) M
  obtain ⟨gb, e, O, hbody, hx⟩ := (hbody _).runLoop hr h
  cases hx
  exact ⟨gb, e, O, hbody, rfl⟩

/-- The loop counts in a variable that is there and has a value. -/
theorem passes_there {counter : String} {body : Gen Unit} (hr : Ready k g I)
    (hs : slots.Filled g I) (hf : g.find? counter = some copy) (hcopy : copy.Filled g I)
    (hb : ∀ g I, Settled (k.counting counter) k' body g I)
    (h : emitLaps number slots body copy g = .ok () g') :
    ∃ c, Passes (fun J => ∀ mark, J (.numbered mark number) = I) k (k.lapping k') g g' I c I := by
  let P := fun J : Label → Set Instruction => ∀ mark, J (.numbered mark number) = I
  have hr' := hr.counting hf
  have b₁ : Passes P _ _ g _ I _ I := passes_lapCheck hr' hs fun J hJ => ⟨hJ _, hJ _⟩
  have hcopy := hcopy.mono (prefix_of_code b₁.code) subset_rfl
  have b₂ : Passes P _ _ _ _ I [.move (.register .rax) (.memory copy.low)] I :=
    .proper b₁.ready (proper_store hcopy .rax)
  have head := b₁.append b₂
  rw [Generator.emitting_emitting] at head
  obtain ⟨gb, e, O, hbody, rfl⟩ := run_emitLaps hb head.ready h
  obtain ⟨c, hlaps⟩ := passes_laps hr' hs head hbody fun J hJ => ⟨hJ _, hJ _, hJ _⟩
  obtain ⟨_, -, -, hkept, -⟩ := hlaps.turns
  exact ⟨c, hlaps.of_counting.loosen (fun name hname => hkept name (hr.bound name hname))
    (List.Subset.refl _) ⟨[], rfl⟩ rfl⟩

/-- The loop counts in a variable of its own. -/
theorem passes_own {counter : String} {body : Gen Unit} (hr : Ready k g I)
    (hs : slots.Filled g I) (hb : ∀ g I, Settled (k.counting counter) k' body g I)
    (h : inScope (do emitLaps number slots body (← declare counter .integer true)) g =
      .ok () g') :
    ∃ (s : Mark → Set Instruction) (c : List Instruction) (O : Set Instruction),
      Passes (fun J => ∀ mark, J (.numbered mark number) = s mark) k (k.lapping k')
        g g' I c O := by
  obtain ⟨g₀, hx, rfl⟩ := run_inScope h
  have hdeclare : Settles k (k.bind counter) (fun slot g' _ => slot.type = .integer ∧
    slot.Blank g' ∧ g'.find? counter = some slot) (declare counter .integer true) g.pushed I :=
    settles_declare counter .integer true
  obtain ⟨copy, g₁, c₀, M, h₀, ⟨htype, hblank, hfound⟩, hx⟩ := hdeclare.run hr.pushed hx
  have hs₁ : slots.Filled g₁ M := hs.mono (prefix_of_code h₀.code) h₀.ran
  -- The variable has a value behind the first check only, and so in the laps.
  let store : List Instruction := [.move (.register .rax) (.memory copy.low)]
  let s := fun mark : Mark => if mark = .forNext then M ∪ {i | i ∈ store} else M
  let P := fun J : Label → Set Instruction => ∀ mark, J (.numbered mark number) = s mark
  have b₁ : Passes P _ _ g₁ _ M _ M := passes_lapCheck h₀.ready hs₁ fun J hJ => ⟨hJ _, hJ _⟩
  have hblank : copy.Blank (g₁.emitting (lapCheck number slots)) :=
    hblank.unchanged rfl rfl (List.flatMap_eq_nil_iff.mp rfl)
  have hfill : copy.FilledBy store :=
    Slot.filledBy_store (by simp [htype]) rfl ⟨rfl, rfl, rfl, rfl⟩
  obtain ⟨b₂, -⟩ := passes_fill (P := P) hblank hfill b₁.ready k.strayed fun name hname => by
    by_cases he : name = counter
    · exact .inr (by rw [he]; exact hfound)
    · exact .inl (List.not_mem_cons_of_ne_of_not_mem he hname)
  have head := b₁.append b₂
  rw [Generator.emitting_emitting] at head
  have hr₁ : Ready (k.counting counter) (g₁.emitting (lapHead number slots copy)) _ :=
    head.ready.congr rfl rfl
  obtain ⟨gb, e, O, hbody, rfl⟩ := run_emitLaps hb hr₁ hx
  obtain ⟨new, htouched, -⟩ := hbody.turns
  obtain ⟨k₂, hj, hbody⟩ := hbody.rebase (counter :: k.touched)
  obtain ⟨c, hlaps⟩ := passes_laps h₀.ready hs₁ head hbody fun J hJ => ⟨hJ _, hJ _, hJ _⟩
  have hscope := ((h₀.weaken fun _ _ => trivial).append hlaps).scope hr id
  exact ⟨s, _, M, hscope.loosen hscope.ready.bound (List.subset_append_right _ _)
    ⟨new, htouched⟩ hj.symm⟩

theorem settled_emitFor {bounds : Gen LoopSlots} {body : Gen Unit} {counter : String}
    (ha : ∀ g I, Settles k k₁ (fun (slots : LoopSlots) g' O => slots.Filled g' O) bounds g I)
    (hmet : counter ∉ k₁.strayed) (hb : ∀ g I, Settled (k₁.counting counter) k₂ body g I) :
    Settled k (k₁.lapping k₂) (emitFor counter bounds body) g I := by
  rintro hr ⟨⟩ g' hx
  obtain ⟨slots, g₁, c, M, h₁, hs, hx⟩ := (ha g.numbered I).run hr.numbered hx
  have hr₁ := h₁.ready
  have hown : inScope (do
      emitLaps (g.labels + 1) slots body (← declare counter .integer true)) g₁ = .ok () g' →
      ∃ c O, Passes (fun _ => True) k (k₁.lapping k₂) g g' I c O ∧ True := by
    intro hx
    obtain ⟨s, d, O, h₂⟩ := passes_own hr₁ hs hb hx
    exact ⟨_, O, ((h₁.weaken fun _ _ => trivial).append h₂).own fun _ h => h, trivial⟩
  obtain ⟨_, _, ⟨⟩, hx⟩ := bind_ok.mp hx
  cases hf : g₁.find? counter with
  | none =>
    rw [hf] at hx
    exact hown hx
  | some slot =>
    rw [hf] at hx
    dsimp only at hx
    split at hx
    · obtain ⟨d, h₂⟩ := passes_there hr₁ hs hf (hr₁.settled counter hmet slot hf) hb hx
      exact ⟨_, M, ((h₁.weaken fun _ _ => trivial).append h₂).own (s := fun _ => M) fun _ h => h,
        trivial⟩
    · exact hown hx

end

/-! ## Trees -/

/-- Arguments are sent from slots that are filled. -/
theorem proper_callCode {symbol : String} {slots : List Slot}
    (hs : ∀ slot ∈ slots, slot.Filled g I) : ∀ i ∈ callCode symbol slots, Proper g I i := by
  intro i hi
  have hcalling := calling_callCode symbol slots i hi
  obtain ⟨hplaced, htarget, hfalls⟩ :
      i.placed? = none ∧ i.target? = none ∧ i.falls = true := by
    rw [callCode_eq] at hi
    rcases List.mem_append.mp hi with hi | hi
    · exact (preparing_callLead slots i hi).through
    · rcases List.mem_cons.mp hi with rfl | hi
      · exact ⟨rfl, rfl, rfl⟩
      · exact (preparing_callTail slots i hi).through
  refine ⟨hplaced, hfalls, by rw [htarget]; nofun, fun m hm => ?_, ?_⟩
  · obtain ⟨slot, hslot, rfl⟩ := hcalling.memories m hm
    exact (hs slot hslot).low
  · cases hz : i.zeroed? with
    | none => rfl
    | some m =>
      have hstores := hcalling.stores
      rw [Instruction.eq_of_zeroed? hz] at hstores
      cases hstores

mutual

/-- The code of a settled expression initialises what it reads. -/
theorem settled_expression : ∀ (e : Expr) {k k' : Bindings}, e.settle k = some k' →
    ∀ (g : Generator) (I : Set Instruction), Settled k k' (expression e) g I
  | .integer n _, _, _, hk, g, I => by
    cases hk
    refine (settled_emit ?_).andThen fun _ _ _ => .pure trivial
    unfold constantCode
    split <;> simp [proper_iff, Instruction.falls]
  | .float x _, _, _, hk, g, I => by
    cases hk
    refine (settles_internFloat _).andThen fun l _ _ => ?_
    refine (settled_emit ?_).andThen fun _ _ _ => .pure trivial
    exact proper_straight rfl (List.forall_mem_singleton.mpr (initialised_data l 0))
  | .boolean b _, _, _, hk, g, I => by
    cases hk
    refine (settled_emit ?_).andThen fun _ _ _ => .pure trivial
    cases b <;> exact proper_bare rfl rfl
  | .string text _, _, _, hk, g, I => by
    cases hk
    refine (settles_internString text).andThen fun l _ _ => ?_
    exact (settled_emit (proper_bare rfl rfl)).andThen fun _ _ _ => .pure trivial
  | .name n span, _, _, hk, g, I =>
    (settles_resolve hk span.start).bind fun slot _ _ _ _ hslot =>
      (settled_emit (proper_loadCode hslot)).andThen fun _ _ _ => .pure trivial
  | .group inner _, _, _, hk, g, I => settled_expression inner hk g I
  | .binary operator left right span, _, _, hk, g, I => by
    obtain ⟨_, hleft, hright⟩ := Option.bind_eq_some_iff.mp hk
    exact (settled_expression left hleft g I).andThen fun type _ _ =>
      (settles_spill type).bind fun slot _ _ _ _ hslot =>
        (settled_expression right hright _ _).bind fun _ _ _ _ hb _ =>
          settled_emitBinary operator (hslot.2.behind hb) _ span.start
  | .unary (.step step) operand span, _, _, hk, g, I => by
    rw [expression]
    rw [Expr.settle] at hk
    cases hn : operand.ungroup.name? with
    | some name =>
      rw [hn] at hk
      exact settled_emitStepValue step hk span.start
    | none =>
      rw [hn] at hk
      exact settled_expression operand hk g I
  | .unary .not operand span, _, _, hk, g, I | .unary .negate operand span, _, _, hk, g, I
  | .unary .plus operand span, _, _, hk, g, I =>
    (settled_expression operand hk g I).andThen fun type _ _ =>
      settled_emitUnary _ type span.start
  | .call callee arguments span, _, _, hk, g, I => by
    rw [expression]
    refine .bindGet ?_
    cases hf : g.signatures.find? callee with
    | none =>
      exact (settled_discarded arguments hk g I).andThen fun _ _ _ => settled_emitFailedCall _ _ _
    | some signature =>
      dsimp only
      split
      · next hlength =>
        refine (settles_stored arguments signature.function.parameters hlength.symm hk g I).bind
          fun slots _ _ _ _ hslots => ?_
        refine (settled_emit (proper_callCode hslots)).andThen fun _ _ _ => ?_
        split
        · exact (settled_emit (proper_bare rfl rfl)).andThen fun _ _ _ => .pure trivial
        · exact .pure trivial
      · exact (settled_discarded arguments hk g I).andThen fun _ _ _ =>
          settled_emitFailedCall _ _ _
  | .range start stop _ _ _ _, _, _, hk, g, I => by
    obtain ⟨_, hstart, hstop⟩ := Option.bind_eq_some_iff.mp hk
    refine (settled_expression start hstart g I).andThen fun type _ _ => ?_
    refine (settles_emitCoercion type _ _).andThen fun _ _ _ => ?_
    refine (settles_spill _).bind fun first _ _ _ _ hfirst => ?_
    refine (settled_expression stop hstop _ _).bind fun type _ _ _ h₁ _ => ?_
    refine (settles_emitCoercion type _ _).bind fun _ _ _ _ h₂ _ => ?_
    have hlow := (hfirst.2.behind (h₁.trans h₂)).low
    refine (settled_emit ?_).andThen fun _ _ _ => .pure trivial
    exact proper_straight rfl (List.forall_mem_singleton.mpr hlow)
  | .run ⟨body, _⟩ _, _, _, hk, g, I => by
    obtain ⟨k', hbody, hk⟩ := Option.bind_eq_some_iff.mp hk
    cases hk
    rw [expression]
    refine (Settles.inScope (settled_lastValue body hbody g.pushed I)).andThen fun type _ _ => ?_
    cases type with
    | some type => exact .pure trivial
    | none => exact (settled_emit (proper_bare rfl rfl)).andThen fun _ _ _ => .pure trivial

theorem settled_discarded : ∀ (es : List Expr) {k k' : Bindings},
    Expr.settleAll es k = some k' → ∀ (g : Generator) (I : Set Instruction),
    Settled k k' (discarded es) g I
  | [], _, _, hk, g, I => by
    cases hk
    exact .pure trivial
  | e :: es, _, _, hk, g, I => by
    obtain ⟨_, he, hes⟩ := Option.bind_eq_some_iff.mp hk
    exact (settled_expression e he g I).andThen fun _ _ _ => settled_discarded es hes _ _

/-- The slots of arguments are filled. -/
theorem settles_stored : ∀ (es : List Expr) (ps : List Parameter) (_ : es.length = ps.length)
    {k k' : Bindings}, Expr.settleAll es k = some k' → ∀ (g : Generator) (I : Set Instruction),
    Settles k k' (fun slots g' O => ∀ slot ∈ slots, slot.Filled g' O) (stored es ps) g I
  | [], [], _, _, _, hk, g, I => by
    cases hk
    exact .pure fun _ h => absurd h List.not_mem_nil
  | e :: es, p :: ps, hlength, _, _, hk, g, I => by
    obtain ⟨_, he, hes⟩ := Option.bind_eq_some_iff.mp hk
    refine (settled_expression e he g I).andThen fun type _ _ => ?_
    refine (settles_emitCoercion type _ _).andThen fun _ _ _ => ?_
    refine (settles_spill _).bind fun slot _ _ _ _ hslot => ?_
    refine (settles_stored es ps (Nat.succ.inj hlength) hes _ _).bind
      fun slots _ _ _ hb hslots => .pure ?_
    exact List.forall_mem_cons.mpr ⟨hslot.2.behind hb, hslots⟩

theorem settled_lastValue : ∀ (body : List Stmt) {k k' : Bindings},
    Stmt.settleAll body k = some k' → ∀ (g : Generator) (I : Set Instruction),
    Settled k k' (lastValue body) g I
  | [], _, _, hk, g, I => by
    cases hk
    exact .pure trivial
  | b :: rest, k, k', hk, g, I => by
    obtain ⟨k₁, hb, hrest⟩ := Option.bind_eq_some_iff.mp hk
    have hstatement := settled_statement b hb g I
    have hlast := settled_lastValue rest hrest
    cases b with
    | expression e =>
      cases rest with
      | nil =>
        cases hrest
        exact (settled_expression e hb g I).map
      | cons => exact hstatement.andThen fun _ g' O => hlast g' O
    | _ => exact hstatement.andThen fun _ g' O => hlast g' O

theorem settled_option : ∀ (e : Option Expr) {k k' : Bindings},
    Expr.settleOption e k = some k' → ∀ (g : Generator) (I : Set Instruction),
    Settled k k' (option e) g I
  | none, _, _, hk, g, I => by
    cases hk
    exact .pure trivial
  | some e, _, _, hk, g, I => (settled_expression e hk g I).map

theorem settles_loopSlots (position : Position) : ∀ (e : Expr) {k k' : Bindings},
    e.settleBounds k = some k' → ∀ (g : Generator) (I : Set Instruction),
    Settles k k' (fun (slots : LoopSlots) g' O => slots.Filled g' O) (loopSlots position e) g I
  | .group inner _, _, _, hk, g, I => settles_loopSlots position inner hk g I
  | .range start stop excludesStop descending step _, _, _, hk, g, I => by
    obtain ⟨_, hstart, hk⟩ := Option.bind_eq_some_iff.mp hk
    obtain ⟨_, hstop, hstep⟩ := Option.bind_eq_some_iff.mp hk
    exact settles_bounds (settled_expression start hstart) (settled_expression stop hstop)
      (settles_loopStep step hstep) _ _ excludesStop descending
  | .integer .., _, _, _, _, _ | .float .., _, _, _, _, _ | .boolean .., _, _, _, _, _
  | .string .., _, _, _, _, _ | .name .., _, _, _, _, _ | .binary .., _, _, _, _, _
  | .unary .., _, _, _, _, _ | .call .., _, _, _, _, _ | .run .., _, _, _, _, _ => by
    rintro - _ _ ⟨⟩

theorem settles_loopStep : ∀ (e : Option Expr) {k k' : Bindings},
    Expr.settleOption e k = some k' → ∀ (g : Generator) (I : Set Instruction),
    Settles k k' (fun slot g' O => slot.Filled g' O) (loopStep e) g I
  | some e, _, _, hk, g, I =>
    (settled_expression e hk g I).andThen fun type _ _ =>
      (settles_emitCoercion type _ _).andThen fun _ _ _ => settles_emitStepCheck
  | none, _, _, hk, g, I => by
    cases hk
    refine (settles_temporary .integer).bind fun slot _ _ _ _ hs => ?_
    have hfill : slot.FilledBy [.move (.immediate 1) (.memory slot.low)] :=
      Slot.filledBy_store (by simp [hs.1]) rfl ⟨rfl, rfl, rfl, rfl⟩
    exact (settles_fill hs.2 hfill).bind fun _ _ _ _ _ hfilled => .pure hfilled

/-- The code of a settled statement initialises what it reads. -/
theorem settled_statement : ∀ (b : Stmt) {k k' : Bindings}, b.settle k = some k' →
    ∀ (g : Generator) (I : Set Instruction), Settled k k' (statement b) g I
  | .expression e, _, _, hk, g, I =>
    (settled_expression e hk g I).andThen fun _ _ _ => .pure trivial
  | .declare name constant type value span, _, _, hk, g, I => by
    obtain ⟨_, hvalue, hk⟩ := Option.bind_eq_some_iff.mp hk
    cases hk
    exact (settled_option value hvalue g I).andThen fun value _ _ =>
      settled_emitDeclaration name constant type value span.start
  | .assign target operator value span, _, _, hk, g, I => by
    obtain ⟨_, hvalue, hk⟩ := Option.bind_eq_some_iff.mp hk
    exact (settled_option value hvalue g I).andThen fun value _ _ =>
      settled_emitAssignment hk operator value span.start
  | .print none newline _, _, _, hk, g, I => by
    cases hk
    rw [statement]
    split
    · exact settled_emit (proper_bare rfl rfl)
    · exact .pure trivial
  | .print (some e) newline _, _, _, hk, g, I =>
    (settled_expression e hk g I).andThen fun type _ _ => settled_emitPrint type newline
  | .block ⟨body, _⟩, _, _, hk, g, I => by
    obtain ⟨_, hbody, hk⟩ := Option.bind_eq_some_iff.mp hk
    cases hk
    exact .inScope (settled_statements body hbody g.pushed I)
  | .branch condition thenBody elseBody _, _, _, hk, g, I => by
    obtain ⟨_, hcondition, hk⟩ := Option.bind_eq_some_iff.mp hk
    obtain ⟨_, hthen, hk⟩ := Option.bind_eq_some_iff.mp hk
    obtain ⟨_, helse, hk⟩ := Option.bind_eq_some_iff.mp hk
    cases hk
    rw [statement_branch]
    exact settled_emitBranch (settled_expression condition hcondition)
      (settled_statement thenBody hthen) (settled_statementOption elseBody helse)
  | .whileLoop condition body _, _, _, hk, g, I => by
    obtain ⟨_, hcondition, hk⟩ := Option.bind_eq_some_iff.mp hk
    obtain ⟨_, hbody, hk⟩ := Option.bind_eq_some_iff.mp hk
    cases hk
    rw [statement_whileLoop]
    exact settled_emitWhile (settled_expression condition hcondition) (settled_statement body hbody)
  | .doWhile body condition _, _, _, hk, g, I => by
    obtain ⟨_, hbody, hk⟩ := Option.bind_eq_some_iff.mp hk
    obtain ⟨_, hcondition, hk⟩ := Option.bind_eq_some_iff.mp hk
    cases hk
    rw [statement_doWhile]
    exact settled_emitDoWhile (settled_statement body hbody)
      (settled_expression condition hcondition)
  | .forLoop counter range body _, _, _, hk, g, I => by
    obtain ⟨_, hrange, hk⟩ := Option.bind_eq_some_iff.mp hk
    obtain ⟨_, hmeet, hk⟩ := Option.bind_eq_some_iff.mp hk
    obtain ⟨_, hbody, hk⟩ := Option.bind_eq_some_iff.mp hk
    cases hk
    obtain ⟨hmet, rfl⟩ := of_meet hmeet
    rw [statement_forLoop]
    exact settled_emitFor (settles_loopSlots range.span.start range hrange) hmet
      (settled_statement body hbody)
  | .function _, _, _, hk, g, I => by
    cases hk
    exact .pure trivial
  | .return none _, _, _, hk, g, I => by
    cases hk
    exact settled_emitReturn none
  | .return (some e) _, _, _, hk, g, I => by
    obtain ⟨_, he, hk⟩ := Option.bind_eq_some_iff.mp hk
    cases hk
    exact (settled_expression e he g I).andThen fun type _ _ =>
      settled_emitReturn (some (type, e.span.start))
  | .break _, _, _, hk, g, I => by
    cases hk
    exact settled_emitLoopJump .done
  | .continue _, _, _, hk, g, I => by
    cases hk
    exact settled_emitLoopJump .again

theorem settled_statementOption : ∀ (b : Option Stmt) {k k' : Bindings},
    Stmt.settleElse b k = some k' → ∀ (g : Generator) (I : Set Instruction),
    Settled k k' (statementOption b) g I
  | none, _, _, hk, g, I => by
    cases hk
    exact .pure trivial
  | some b, _, _, hk, g, I => settled_statement b hk g I

theorem settled_statements : ∀ (body : List Stmt) {k k' : Bindings},
    Stmt.settleAll body k = some k' → ∀ (g : Generator) (I : Set Instruction),
    Settled k k' (statements body) g I
  | [], _, _, hk, g, I => by
    cases hk
    exact .pure trivial
  | b :: rest, _, _, hk, g, I => by
    obtain ⟨_, hb, hrest⟩ := Option.bind_eq_some_iff.mp hk
    exact (settled_statement b hb g I).andThen fun _ _ _ => settled_statements rest hrest _ _

end

end Gen

end ScriptLang
