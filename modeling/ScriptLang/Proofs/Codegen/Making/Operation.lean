import ScriptLang.Proofs.Codegen.Making

/-!
# The shapes of code for operators

Conversions and operators are plain code, the filling of slots, and divisions.
-/

namespace ScriptLang

open Assembly

namespace Generator

variable {g g' : Generator} {slot : Slot}

theorem Pools.refl (g : Generator) : g.Pools g :=
  ⟨rfl, rfl, rfl, rfl, rfl, rfl, rfl, List.prefix_rfl, List.prefix_rfl⟩

theorem Pools.coded (g : Generator) (code : Array Instruction) (diagnostics : List Fault) :
    g.Pools { g with code, diagnostics } :=
  ⟨rfl, rfl, rfl, rfl, rfl, rfl, rfl, List.prefix_rfl, List.prefix_rfl⟩

theorem SameNames.names (h : g.SameNames g') (hs : g.Names slot) : g'.Names slot := by
  rw [Names, h.scopes, h.globals]
  exact hs

/-- What a name means has a name. -/
theorem names_of_find? {name : String} (h : g.find? name = some slot) : g.Names slot := by
  rcases Option.or_eq_some_iff.mp h with h | ⟨-, h⟩
  · obtain ⟨scope, hs, hn⟩ := List.exists_of_findSome?_eq_some h
    exact .inl ⟨scope, hs, name, hn⟩
  · exact .inr ⟨name, h⟩

end Generator

namespace Stage

variable {s : Stage} {g : Generator} {i : Instruction} {slot : Slot}

theorem Holds.of_allotted (h : ⟨slot, .temporary⟩ ∈ s.allotted) : s.Holds slot := .inr h

theorem admits_iff : s.Admits i ↔ i.Level ∧ i.placed? = none ∧ i.callee? = none ∧
    (∀ m ∈ i.memories, s.Addresses m) ∧
    (∀ m ∈ i.stores, ∃ slot, s.generator.Names slot ∧ m ∈ slot.parts) ∧
    (∀ l ∈ i.taken?, s.Defines l) ∧ ∀ l ∈ i.target?, s.generator.Exit l :=
  ⟨fun ⟨a, b, c, d, e, f, h⟩ => ⟨a, b, c, d, e, f, h⟩,
    fun ⟨a, b, c, d, e, f, h⟩ => ⟨a, b, c, d, e, f, h⟩⟩

section

variable {c : List Instruction}

/-- Plain code that names what may be named. -/
theorem admits_plain (h : c.all Instruction.isPlain = true)
    (hm : ∀ m ∈ c.flatMap (·.memories), s.Addresses m)
    (hs : ∀ m ∈ c.flatMap (·.stores), ∃ slot, s.generator.Names slot ∧ m ∈ slot.parts)
    (ht : ∀ l ∈ c.filterMap (·.taken?), s.Defines l) : ∀ i ∈ c, s.Admits i := by
  intro i hi
  obtain ⟨hlevel, hplaced, hcallee, htarget⟩ :=
    Instruction.of_isPlain (List.all_eq_true.mp h i hi)
  exact ⟨hlevel, hplaced, hcallee, fun m hm' => hm m (List.mem_flatMap.mpr ⟨i, hi, hm'⟩),
    fun m hm' => hs m (List.mem_flatMap.mpr ⟨i, hi, hm'⟩),
    fun l hl => ht l (List.mem_filterMap.mpr ⟨i, hi, hl⟩), by rw [htarget]; nofun⟩

/-- Plain code that only reads what may be named. -/
theorem admits_reading (h : c.all Instruction.isPlain = true)
    (hm : ∀ m ∈ c.flatMap (·.memories), s.Addresses m) (hs : c.flatMap (·.stores) = [])
    (ht : c.filterMap (·.taken?) = []) : ∀ i ∈ c, s.Admits i :=
  admits_plain h hm (by rw [hs]; exact List.forall_mem_nil _)
    (by rw [ht]; exact List.forall_mem_nil _)

/-- Plain code that names no memory. -/
theorem admits_bare (h : c.all Instruction.isPlain = true) (hm : c.flatMap (·.memories) = [])
    (ht : ∀ l ∈ c.filterMap (·.taken?), s.Defines l) : ∀ i ∈ c, s.Admits i := by
  refine admits_plain h (by rw [hm]; exact List.forall_mem_nil _) (fun m hs => ?_) ht
  obtain ⟨i, hi, hstore⟩ := List.mem_flatMap.mp hs
  have hmem := List.mem_flatMap.mpr ⟨i, hi, Instruction.memories_of_stores hstore⟩
  rw [hm] at hmem
  cases hmem

end

end Stage

theorem Slot.low_mem_parts (slot : Slot) : slot.low ∈ slot.parts := by
  unfold Slot.parts
  split <;> exact List.mem_cons_self

theorem Slot.high_mem_parts {slot : Slot} (h : slot.type = .range) : slot.high ∈ slot.parts := by
  rw [Slot.parts, if_pos h]
  exact List.mem_cons_of_mem _ (List.mem_singleton_self _)

namespace Stage

variable {s : Stage} {slot : Slot}

theorem admits_loadCode (h : s.Holds slot) : ∀ i ∈ slot.loadCode, s.Admits i := by
  have hlow := List.forall_mem_singleton.mpr (Addresses.part h slot.low_mem_parts)
  unfold Slot.loadCode
  split
  · exact admits_reading rfl hlow rfl rfl
  · next ht =>
    have hhigh : s.Addresses slot.high := .part h (slot.high_mem_parts ht)
    exact admits_reading rfl (List.forall_mem_cons.mpr
      ⟨hlow _ (List.mem_singleton_self _), List.forall_mem_singleton.mpr hhigh⟩) rfl rfl
  · exact admits_reading rfl hlow rfl rfl

theorem admits_storeCode (h : s.generator.Names slot) : ∀ i ∈ slot.storeCode, s.Admits i := by
  have haddresses : ∀ m ∈ slot.parts, s.Addresses m := fun m hm => .part (.inl h) hm
  have hnamed : ∀ m ∈ slot.parts, ∃ n, s.generator.Names n ∧ m ∈ n.parts :=
    fun m hm => ⟨slot, h, hm⟩
  unfold Slot.parts at haddresses hnamed
  unfold Slot.storeCode
  split
  · next ht =>
    rw [if_neg (by rw [ht]; decide)] at haddresses hnamed
    exact admits_plain rfl haddresses hnamed (List.forall_mem_nil _)
  · next ht =>
    rw [if_pos ht] at haddresses hnamed
    exact admits_plain rfl haddresses hnamed (List.forall_mem_nil _)
  · next ht =>
    rw [if_neg ht] at haddresses hnamed
    exact admits_plain rfl haddresses hnamed (List.forall_mem_nil _)

theorem admits_truthCode (type : ValueType) : ∀ i ∈ type.truthCode, s.Admits i := by
  cases type with
  | string =>
    exact admits_reading rfl (List.forall_mem_singleton.mpr (.pointed .rax)) rfl rfl
  | _ => exact admits_bare rfl rfl (List.forall_mem_nil _)

end Stage

/-- Behind code that is emitted. -/
def Stage.emitting (s : Stage) (code : List Instruction) : Stage :=
  { s with generator := { s.generator with code := s.generator.code ++ code } }

namespace Makes

variable {cells : List Slot} {s t : Stage} {c : List Instruction}

theorem emitted (h : ∀ i ∈ c, s.Admits i) : Makes cells s c s :=
  plain (s := s) (g := s.generator) (.refl _) h

theorem pooled {g : Generator} (h : s.generator.Pools g) : Makes cells s [] ⟨g, s.allotted⟩ :=
  plain h fun _ hi => absurd hi List.not_mem_nil

theorem nothing (s : Stage) : Makes cells s [] s := pooled (.refl _)

/-- Code and diagnostics are no part of what is made. -/
theorem recorded (h : Makes cells s c t) {g : Generator} (hg : t.generator.Pools g) :
    Makes cells s c ⟨g, t.allotted⟩ := by
  have h := h.append (pooled hg)
  rwa [List.append_nil] at h

theorem thenEmitting (h : Makes cells s c t) (code : List Instruction) :
    Makes cells s c (t.emitting code) :=
  h.recorded (.coded _ _ _)

theorem ofEmitting {code : List Instruction} (h : Makes cells (s.emitting code) c t) :
    Makes cells s c t :=
  (pooled (.coded _ _ _)).append h

/-- A slot is filled in between. -/
theorem through (type : ValueType) (before after : List Instruction) {fill : List Instruction}
    (hb : ∀ i ∈ before, s.Admits i) (hf : (s.fresh type).Fills fill)
    (ha : ∀ i ∈ after, (s.handing type .temporary).Admits i) :
    Makes cells s (before ++ (fill ++ after)) (s.handing type .temporary) :=
  .append (emitted hb) (.append (.fill hf) (emitted ha))

end Makes

namespace Gen

variable {α β : Type} {cells : List Slot} {p : α → Stage → Prop} {q : β → Stage → Prop}
  {s : Stage} {x : Gen α} {f : α → Gen β}

/-- Names mean what they meant behind what was generated without one. -/
theorem Yields.sameNames {p : α → Prop} {ds : List Fault} {g g' : Generator} {a : α}
    (h : Yields p ds x g) (hx : x g = .ok a g') : g.SameNames g' := by
  obtain ⟨_, _, hy, -, hg⟩ := h
  cases hy.symm.trans hx
  exact hg.sameNames

theorem Quiet.sameNames {g g' : Generator} {a : α} (h : Quiet x) (hx : x g = .ok a g') :
    g.SameNames g' :=
  (h g).sameNames hx

/-- If the computation gives a result, the code it appends was made from this stage on, and
the result has a property at the stage behind. -/
def Shapes (cells : List Slot) (p : α → Stage → Prop) (x : Gen α) (s : Stage) : Prop :=
  s.generator.Rooted → ∀ a g, x s.generator = .ok a g →
    ∃ (code : List Instruction) (allotted : List Allotment),
      g.code = s.generator.code ++ code ∧ Makes cells s code ⟨g, allotted⟩ ∧ p a ⟨g, allotted⟩

/-- The code the computation appends, if it gives a result, was made from this stage on. -/
abbrev Shaped (cells : List Slot) (x : Gen α) (s : Stage) : Prop :=
  Shapes cells (fun _ _ => True) x s

namespace Shapes

theorem pure {a : α} (h : p a s) : Shapes cells p (Pure.pure a) s := by
  rintro - _ _ ⟨⟩
  exact ⟨[], s.allotted, Array.appendList_nil.symm, .nothing s, h⟩

theorem bind (hx : Shapes cells p x s)
    (hf : ∀ a t, x s.generator = .ok a t.generator → s.Before t → p a t →
      Shapes cells q (f a) t) : Shapes cells q (x >>= f) s := by
  intro hs b g hb
  obtain ⟨a, g', ha, hb⟩ := bind_ok.mp hb
  obtain ⟨c, allotted, hc, hm, hp⟩ := hx hs a g' ha
  have hbefore := hm.before hs
  obtain ⟨d, allotted', hd, hm', hq⟩ :=
    hf a ⟨g', allotted⟩ ha hbefore hp (hbefore.rooted hs) b g hb
  exact ⟨c ++ d, allotted', by rw [hd, hc]; exact Array.ext' (by simp), hm.append hm', hq⟩

theorem map {f : α → β} (hx : Shaped cells x s) : Shaped cells (f <$> x) s := by
  intro hs b g h
  obtain ⟨a, ha, -⟩ := map_ok.mp h
  obtain ⟨c, allotted, hc, hm, -⟩ := hx hs a g ha
  exact ⟨c, allotted, hc, hm, trivial⟩

theorem bindGet {f : Generator → Gen β} (h : Shapes cells q (f s.generator) s) :
    Shapes cells q (get >>= f) s := h

/-- What a first part made, in a run that gives a result. -/
theorem run (hx : Shapes cells p x s) (hs : s.generator.Rooted) {b : β} {g : Generator}
    (h : (x >>= f) s.generator = .ok b g) :
    ∃ (a : α) (t : Stage) (c : List Instruction), Makes cells s c t ∧ p a t ∧
      t.generator.code = s.generator.code ++ c ∧ t.generator.Rooted ∧
      f a t.generator = .ok b g := by
  obtain ⟨a, g', ha, hb⟩ := bind_ok.mp h
  obtain ⟨c, allotted, hc, hm, hp⟩ := hx hs a g' ha
  exact ⟨a, ⟨g', allotted⟩, c, hm, hp, hc, (hm.before hs).rooted hs, hb⟩

/-- What comes next does not depend on what came before. -/
theorem andThen (hx : Shapes cells p x s) (hf : ∀ a t, Shapes cells q (f a) t) :
    Shapes cells q (x >>= f) s :=
  hx.bind fun a t _ _ _ => hf a t

theorem weaken {r : α → Stage → Prop} (hx : Shapes cells p x s) (h : ∀ a t, p a t → r a t) :
    Shapes cells r x s := by
  intro hs a g ha
  obtain ⟨c, allotted, hc, hm, hp⟩ := hx hs a g ha
  exact ⟨c, allotted, hc, hm, h _ _ hp⟩

theorem modified {f : Generator → Generator} (hcode : (f s.generator).code = s.generator.code)
    (h : s.generator.Pools (f s.generator)) :
    Shaped cells (modify f : Gen Unit) s := by
  rintro - _ _ ⟨⟩
  exact ⟨[], s.allotted, by rw [hcode, Array.appendList_nil], .pooled h, trivial⟩

end Shapes

theorem shapes_emit {code : List Instruction} (h : ∀ i ∈ code, s.Admits i) :
    Shaped cells (emit code) s := by
  rintro - _ _ ⟨⟩
  exact ⟨code, s.allotted, rfl, (Makes.emitted h).recorded (.coded _ _ _), trivial⟩

theorem shapes_report (cause : Cause) (position : Position) :
    Shaped cells (report cause position) s :=
  .modified rfl (.coded _ _ _)

theorem lt_size_of_idxOf? {γ : Type} [BEq γ] {xs : Array γ} {a : γ} {i : Nat}
    (h : xs.idxOf? a = some i) : i < xs.size := by
  obtain ⟨j, -, rfl⟩ := Option.map_eq_some_iff.mp h
  exact j.isLt

theorem shapes_internString (text : String) :
    Shapes cells (fun l t => t.Defines l) (internString text) s := by
  rintro - l g hx
  rw [internString, get_bind] at hx
  cases hi : s.generator.strings.idxOf? text with
  | some i =>
    rw [hi] at hx
    cases hx
    exact ⟨[], s.allotted, Array.appendList_nil.symm, .nothing s,
      .string (lt_size_of_idxOf? hi)⟩
  | none =>
    rw [hi] at hx
    cases hx
    refine ⟨[], s.allotted, Array.appendList_nil.symm, .pooled ⟨rfl, rfl, rfl, rfl, rfl, rfl, rfl,
      ?_, List.prefix_rfl⟩, .string ?_⟩
    · simp
    · simp

theorem shapes_internFloat (bits : UInt64) :
    Shapes cells (fun l t => t.Addresses (.data l 0)) (internFloat bits) s := by
  rintro - l g hx
  rw [internFloat, get_bind] at hx
  cases hi : s.generator.floats.idxOf? bits with
  | some i =>
    rw [hi] at hx
    cases hx
    exact ⟨[], s.allotted, Array.appendList_nil.symm, .nothing s,
      .constant (lt_size_of_idxOf? hi)⟩
  | none =>
    rw [hi] at hx
    cases hx
    refine ⟨[], s.allotted, Array.appendList_nil.symm, .pooled ⟨rfl, rfl, rfl, rfl, rfl, rfl, rfl,
      List.prefix_rfl, ?_⟩, .constant ?_⟩
    · simp
    · simp

/-- The result is kept in a slot without a name. -/
theorem shapes_spill (type : ValueType) :
    Shapes cells (fun slot t => slot.type = type ∧ ⟨slot, .temporary⟩ ∈ t.allotted)
      (spill type) s := by
  rintro - _ _ ⟨⟩
  exact ⟨(s.fresh type).storeCode, _, rfl, (Makes.fill .result).recorded (.coded _ _ _), rfl,
    List.mem_cons_self⟩

/-! ## Results -/

theorem shapes_emitZero (type : ValueType) : Shaped cells (emitZero type) s := by
  cases type with
  | string =>
    refine (shapes_internString "").bind fun l t _ _ hl => shapes_emit ?_
    exact Stage.admits_bare rfl rfl (List.forall_mem_singleton.mpr hl)
  | _ => exact shapes_emit (Stage.admits_bare rfl rfl (List.forall_mem_nil _))

theorem shapes_emitCoercion (source target : ValueType) (position : Position) :
    Shaped cells (emitCoercion source target position) s := by
  unfold emitCoercion
  split
  · exact .pure trivial
  · split
    · exact shapes_emit (Stage.admits_bare rfl rfl (List.forall_mem_nil _))
    · exact shapes_emit (Stage.admits_bare rfl rfl (List.forall_mem_nil _))
    · exact (shapes_report _ position).andThen fun _ _ => shapes_emitZero target

theorem shapes_emitFormatted (format : Format) (type : ValueType)
    {arguments : Slot → List Instruction}
    (h : ∀ (t : Stage) (value : Slot), value.type = type → ⟨value, .temporary⟩ ∈ t.allotted →
      ∀ i ∈ arguments value, t.Admits i) :
    Shaped cells (emitFormatted format type arguments) s := by
  refine (shapes_spill type).bind fun value t _ _ hv => ?_
  rintro - _ _ ⟨⟩
  have hbuffer : (t.handing .string .temporary).Addresses (t.fresh .string).low :=
    .part (.of_allotted List.mem_cons_self) (t.fresh .string).low_mem_parts
  have hmade : Makes cells t _ _ := .through .string
    [.moveLong 48 .rdi, .callLibrary .malloc]
    ([Instruction.move (.register .rax) (.register .rdi), .address (.format format false) .rsi] ++
      arguments value ++ [Instruction.callLibrary .sprintf,
        .move (.memory (t.fresh .string).low) (.register .rax)])
    (Stage.admits_bare rfl rfl (List.forall_mem_nil _)) .result ?_
  · exact ⟨_, _, Array.ext' (by simp [Slot.storeCode, Stage.fresh, Frame.fresh]),
      hmade.recorded (.coded _ _ _), trivial⟩
  · refine List.forall_mem_append.mpr ⟨List.forall_mem_append.mpr ⟨?_, ?_⟩, ?_⟩
    · exact Stage.admits_bare rfl rfl (List.forall_mem_singleton.mpr (.format format false))
    · exact h _ value hv.1 (List.mem_cons_of_mem _ hv.2)
    · exact Stage.admits_reading rfl (List.forall_mem_singleton.mpr hbuffer) rfl rfl

/-- The memory of a filled slot. -/
theorem addresses_of_allotted {slot : Slot} (h : ⟨slot, .temporary⟩ ∈ s.allotted) :
    s.Addresses slot.low :=
  .part (.of_allotted h) slot.low_mem_parts

theorem shapes_emitText (type : ValueType) : Shaped cells (emitText type) s := by
  cases type with
  | string => exact .pure trivial
  | boolean =>
    exact shapes_emit (Stage.admits_bare rfl rfl (List.forall_mem_cons.mpr
      ⟨.truth true, List.forall_mem_singleton.mpr (.truth false)⟩))
  | integer | float =>
    exact shapes_emitFormatted _ _ fun t value _ hv => Stage.admits_reading rfl
      (List.forall_mem_singleton.mpr (addresses_of_allotted hv)) rfl rfl
  | range =>
    refine shapes_emitFormatted _ _ fun t value ht hv => ?_
    have hhigh : t.Addresses value.high := .part (.of_allotted hv) (value.high_mem_parts ht)
    exact Stage.admits_reading rfl (List.forall_mem_cons.mpr
      ⟨addresses_of_allotted hv, List.forall_mem_singleton.mpr hhigh⟩) rfl rfl

theorem names_declaring (hs : s.generator.Rooted) (name : String) (type : ValueType)
    (mutable : Bool) :
    (s.declaring name type mutable).generator.Names (s.generator.frame.fresh type mutable) := by
  obtain ⟨⟨signatures, globals, ⟨scopes, used⟩, _, _, _, _, _, _, _, _⟩, _⟩ := s
  cases scopes with
  | nil => exact absurd rfl hs
  | cons inner outer =>
    refine .inl ⟨_, List.mem_cons_self, name, ?_⟩
    rw [NameMap.find?_insert, if_pos rfl]

theorem shapes_declare (name : String) (type : ValueType) (mutable : Bool) :
    Shapes cells (fun slot t => t.generator.Names slot) (declare name type mutable) s := by
  rintro hs _ _ ⟨⟩
  exact ⟨[], _, Array.appendList_nil.symm, .declare name type mutable,
    names_declaring hs name type mutable⟩

theorem admits_store {slot : Slot} (h : s.generator.Names slot) (source : Operand)
    (hsource : source.memories = []) : s.Admits (.move source (.memory slot.low)) := by
  have hlow : s.Addresses slot.low := .part (.inl h) slot.low_mem_parts
  have hnamed : ∃ n, s.generator.Names n ∧ slot.low ∈ n.parts := ⟨slot, h, slot.low_mem_parts⟩
  cases source with
  | memory m => cases hsource
  | _ => simp [Stage.admits_iff, Instruction.Level, hlow, hnamed]

/-- A name that is sought has a slot. -/
theorem shapes_resolve (name : String) (position : Position) :
    Shapes cells (fun slot t => t.generator.Names slot) (resolve name position) s := by
  unfold resolve
  refine .bindGet ?_
  cases hf : s.generator.find? name with
  | some slot => exact .pure (Generator.names_of_find? hf)
  | none =>
    refine (shapes_report _ position).andThen fun _ _ => ?_
    refine (shapes_declare name .integer true).bind fun slot t _ _ hslot => ?_
    have hcode := List.forall_mem_singleton.mpr (admits_store hslot (.immediate 0) rfl)
    refine (shapes_emit hcode).bind fun _ u hu _ _ => .pure ?_
    exact ((quiet_emit _).sameNames hu).names hslot

/-! ## Operators -/

variable {left : Slot}

theorem shapes_emitJoin (hl : ⟨left, .temporary⟩ ∈ s.allotted) (right : ValueType) :
    Shaped cells (emitJoin left right) s := by
  refine (shapes_emitText right).bind fun _ t₁ _ h₁ _ => ?_
  refine (shapes_spill .string).bind fun rightText t₂ _ h₂ hr => ?_
  have hl₂ := (h₁.trans h₂).allotted.subset hl
  refine (shapes_emit (Stage.admits_loadCode (.of_allotted hl₂))).bind fun _ t₃ _ h₃ _ => ?_
  refine (shapes_emitText left.type).bind fun _ t₄ _ h₄ _ => ?_
  refine (shapes_spill .string).bind fun leftText t _ h₅ hleft => ?_
  have hr := ((h₃.trans h₄).trans h₅).allotted.subset hr.2
  rintro - _ _ ⟨⟩
  -- The length is kept before the buffer is there, whenever its slot is handed out.
  let u := t.handing .integer .temporary
  have hlength : Makes cells t _ u := .through .integer
    [.move (.memory leftText.low) (.register .rdi), .callLibrary .strlen]
    [.move (.memory rightText.low) (.register .rdi), .callLibrary .strlen,
      .integer .add (.memory (t.fresh .integer).low) .rax, .addressOffset 1 .rax .rdi,
      .callLibrary .malloc]
    (by simp [Stage.admits_iff, Instruction.Level, addresses_of_allotted hleft.2]) .result (by
      have hr : (t.handing .integer .temporary).Addresses rightText.low :=
        addresses_of_allotted (List.mem_cons_of_mem _ hr)
      have hn : (t.handing .integer .temporary).Addresses (t.fresh .integer).low :=
        addresses_of_allotted List.mem_cons_self
      simp [Stage.admits_iff, Instruction.Level, hr, hn])
  have hbuffer : Makes cells u _ (u.handing .string .temporary) := .through .string []
    [.move (.register .rax) (.register .rdi),
      .move (.memory leftText.low) (.register .rsi), .callLibrary .strcpy,
      .move (.memory (u.fresh .string).low) (.register .rdi),
      .move (.memory rightText.low) (.register .rsi), .callLibrary .strcat,
      .move (.memory (u.fresh .string).low) (.register .rax)]
    (by simp) .result (by
      have hr : (u.handing .string .temporary).Addresses rightText.low :=
        addresses_of_allotted (List.mem_cons_of_mem _ (List.mem_cons_of_mem _ hr))
      have hl : (u.handing .string .temporary).Addresses leftText.low :=
        addresses_of_allotted (List.mem_cons_of_mem _ (List.mem_cons_of_mem _ hleft.2))
      have hb : (u.handing .string .temporary).Addresses (u.fresh .string).low :=
        addresses_of_allotted List.mem_cons_self
      simp [Stage.admits_iff, Instruction.Level, hr, hl, hb])
  exact ⟨_, _, rfl, (hlength.append hbuffer).recorded (.coded _ _ _), trivial⟩

theorem shapes_emitIntegerArithmetic (operator : Arithmetic)
    (hl : ⟨left, .temporary⟩ ∈ s.allotted) :
    Shaped cells (emitIntegerArithmetic operator left) s := by
  have hload : ∀ i ∈ [.move (.register .rax) (.register .rcx)] ++ left.loadCode, s.Admits i := by
    refine List.forall_mem_append.mpr ⟨?_, Stage.admits_loadCode (.of_allotted hl)⟩
    simp [Stage.admits_iff, Instruction.Level]
  refine (shapes_emit hload).bind fun _ t _ _ _ => ?_
  cases operator with
  | divide | modulo =>
    rintro - _ _ ⟨⟩
    exact ⟨_, t.allotted, rfl, (Makes.divide rfl).recorded (.coded _ _ _), trivial⟩
  | _ =>
    refine (Shapes.pure (p := fun _ _ => True) trivial).andThen fun _ u => shapes_emit ?_
    simp [Arithmetic.integerCode, Stage.admits_iff, Instruction.Level]

theorem admits_floatOperands (hl : s.Holds left) (right : ValueType) :
    ∀ i ∈ floatOperands left right, s.Admits i := by
  have hconvert : ∀ type : ValueType,
      ∀ i ∈ (if type = .integer then [Instruction.toFloat .rax .xmm0] else []), s.Admits i := by
    intro type
    split <;> simp [Stage.admits_iff, Instruction.Level]
  refine List.forall_mem_append.mpr ⟨List.forall_mem_append.mpr
    ⟨List.forall_mem_append.mpr ⟨hconvert right, ?_⟩, Stage.admits_loadCode hl⟩, hconvert _⟩
  simp [Stage.admits_iff, Instruction.Level]

theorem shapes_emitArithmetic (operator : Arithmetic) (hl : ⟨left, .temporary⟩ ∈ s.allotted)
    (right : ValueType) (position : Position) :
    Shaped cells (emitArithmetic operator left right position) s := by
  unfold emitArithmetic
  split
  · exact (shapes_emitJoin hl right).andThen fun _ _ => .pure trivial
  split
  · exact (shapes_emitIntegerArithmetic operator hl).andThen fun _ _ => .pure trivial
  split
  · refine (shapes_emit (List.forall_mem_append.mpr
      ⟨admits_floatOperands (.of_allotted hl) right, ?_⟩)).andThen fun _ _ => .pure trivial
    cases operator <;> simp [Arithmetic.floatCode, Stage.admits_iff, Instruction.Level]
  · refine (shapes_report _ position).andThen fun _ _ => ?_
    exact (shapes_emit (by simp [Stage.admits_iff, Instruction.Level])).andThen
      fun _ _ => .pure trivial

theorem admits_code_of_comparison {operator : Comparison} (hl : s.Holds left) {right : ValueType}
    {code : List Instruction} (h : operator.code left right = .ok code) :
    ∀ i ∈ code, s.Admits i := by
  have hload := Stage.admits_loadCode hl
  unfold Comparison.code at h
  split at h
  · cases h
    refine List.forall_mem_append.mpr ⟨List.forall_mem_append.mpr ⟨?_, hload⟩, ?_⟩ <;>
      simp [Stage.admits_iff, Instruction.Level]
  · cases h
    refine List.forall_mem_append.mpr ⟨List.forall_mem_append.mpr ⟨?_, hload⟩, ?_⟩ <;>
      simp [Stage.admits_iff, Instruction.Level]
  · cases h
    refine List.forall_mem_append.mpr ⟨List.forall_mem_append.mpr ⟨?_, hload⟩, ?_⟩ <;>
      simp [Stage.admits_iff, Instruction.Level]
  · have hrange : ∀ opposite, ∀ i ∈ Comparison.rangeCode opposite left, s.Admits i := by
      intro opposite
      refine List.forall_mem_append.mpr ⟨List.forall_mem_append.mpr
        ⟨List.forall_mem_append.mpr ⟨?_, hload⟩, ?_⟩, ?_⟩
      · simp [Stage.admits_iff, Instruction.Level]
      · simp [Stage.admits_iff, Instruction.Level]
      · split <;> simp [Stage.admits_iff, Instruction.Level]
    cases operator <;> cases h
    · exact hrange false
    · exact hrange true
  · split at h
    · cases h
      refine List.forall_mem_append.mpr ⟨admits_floatOperands hl _, ?_⟩
      cases operator <;> simp [Comparison.floatCode, Stage.admits_iff, Instruction.Level]
    · cases h

theorem shapes_emitComparison (operator : Comparison) (hl : ⟨left, .temporary⟩ ∈ s.allotted)
    (right : ValueType) (position : Position) :
    Shaped cells (emitComparison operator left right position) s := by
  have hend : ∀ t, Shaped cells (do
      emit [.extendByte .rax .rax]
      return ValueType.boolean) t := fun t =>
    (shapes_emit (by simp [Stage.admits_iff, Instruction.Level])).andThen fun _ _ => .pure trivial
  unfold emitComparison
  cases hc : operator.code left right with
  | ok code =>
    exact (shapes_emit (admits_code_of_comparison (.of_allotted hl) hc)).andThen fun _ t => hend t
  | error cause =>
    refine (shapes_report cause position).andThen fun _ _ =>
      (shapes_emit ?_).andThen fun _ t => hend t
    simp [Stage.admits_iff, Instruction.Level]

theorem shapes_emitBinary (operator : BinaryOperator) (hl : ⟨left, .temporary⟩ ∈ s.allotted)
    (right : ValueType) (position : Position) :
    Shaped cells (emitBinary operator left right position) s := by
  cases operator with
  | arithmetic o => exact shapes_emitArithmetic o hl right position
  | comparison o => exact shapes_emitComparison o hl right position
  | logical o =>
    refine (shapes_emit ?_).andThen fun _ _ => .pure trivial
    refine List.forall_mem_append.mpr ⟨List.forall_mem_append.mpr ⟨List.forall_mem_append.mpr
      ⟨List.forall_mem_append.mpr ⟨Stage.admits_truthCode right, ?_⟩,
        Stage.admits_loadCode (.of_allotted hl)⟩, Stage.admits_truthCode _⟩, ?_⟩
    · simp [Stage.admits_iff, Instruction.Level]
    · simp [Stage.admits_iff, Instruction.Level]

theorem shapes_emitUnary (operator : UnaryOperator) (operand : ValueType)
    (position : Position) : Shaped cells (emitUnary operator operand position) s := by
  have hcode : ∀ {code : List Instruction} {type : ValueType}, (∀ i ∈ code, s.Admits i) →
      Shaped cells (do
        emit code
        return type) s := fun h => (shapes_emit h).andThen fun _ _ => .pure trivial
  have hreport : ∀ o : UnaryOperator, Shaped cells (do
      unless operand.isNumeric do reportInvalid o.symbol operand operand position
      return operand) s := by
    intro o
    cases operand.isNumeric with
    | true => exact Shapes.andThen (p := fun _ _ => True) (.pure trivial) fun _ _ => .pure trivial
    | false => exact (shapes_report _ position).andThen fun _ _ => .pure trivial
  unfold emitUnary
  split
  · refine hcode (List.forall_mem_append.mpr ⟨Stage.admits_truthCode _, ?_⟩)
    simp [Stage.admits_iff, Instruction.Level]
  · exact hcode (by simp [Stage.admits_iff, Instruction.Level])
  · exact hcode (by simp [Stage.admits_iff, Instruction.Level])
  · exact hreport _

theorem shapes_emitStep (name : String) {slot : Slot} (h : s.generator.Names slot)
    (increment : Bool) (position : Position) :
    Shaped cells (emitStep name slot increment position) s := by
  have hfinish : ∀ {t : Stage} {store : Instruction}, t.Admits store →
      Shaped cells (if slot.mutable then emit [store] else report (.valReassignment name) position)
        t := by
    intro t store hstore
    split
    · exact shapes_emit (List.forall_mem_singleton.mpr hstore)
    · exact shapes_report _ position
  obtain ⟨location, type, mutable⟩ := slot
  cases type with
  | integer =>
    refine (shapes_emit ?_).bind fun _ t ht _ _ => hfinish ?_
    · simp [Stage.admits_iff, Instruction.Level]
    · exact admits_store (((quiet_emit _).sameNames ht).names h) _ rfl
  | float =>
    refine (shapes_internFloat _).bind fun one t ht _ hone => ?_
    refine (shapes_emit ?_).bind fun _ u hu _ _ => hfinish ?_
    · simp [Stage.admits_iff, Instruction.Level, hone]
    · have h := ((quiet_emit _).sameNames hu).names (((quiet_internFloat _).sameNames ht).names h)
      have hnamed : ∃ n, u.generator.Names n ∧ Slot.low ⟨location, .float, mutable⟩ ∈ n.parts :=
        ⟨_, h, Slot.low_mem_parts _⟩
      have hlow : u.Addresses (Slot.low ⟨location, .float, mutable⟩) :=
        .part (.inl h) (Slot.low_mem_parts _)
      simp [Stage.admits_iff, Instruction.Level, hnamed, hlow]
  | _ => exact .pure trivial

theorem shapes_emitStepValue (step : Step) (name : String) (position : Position) :
    Shaped cells (emitStepValue step name position) s := by
  refine (shapes_resolve name position).bind fun slot t _ _ hslot => ?_
  refine (shapes_emit (Stage.admits_loadCode (.inl hslot))).bind fun _ u hu _ _ => ?_
  have hslot := ((quiet_emit _).sameNames hu).names hslot
  refine (shapes_emitStep name hslot _ position).andThen fun _ _ => ?_
  have hmove : ∀ {i : Instruction} (v : Stage), v.Admits i → Shaped cells (do
      emit [i]
      return slot.type) v := fun v hi =>
    (shapes_emit (List.forall_mem_singleton.mpr hi)).andThen fun _ _ => .pure trivial
  split
  · split
    · exact hmove _ (by simp [Stage.admits_iff, Instruction.Level])
    · exact hmove _ (by simp [Stage.admits_iff, Instruction.Level])
    · exact Shapes.andThen (p := fun _ _ => True) (.pure trivial) fun _ _ => .pure trivial
  · exact .pure trivial

end Gen

end ScriptLang
