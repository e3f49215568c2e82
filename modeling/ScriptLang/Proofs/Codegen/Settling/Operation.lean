import ScriptLang.Proofs.Codegen.Settling

/-!
# Operators initialise what they read

Code for operators reads its operands and the slots that it filled itself.
-/

namespace ScriptLang

open Assembly

/-- Code was added, and more was run. -/
structure Behind (g : Generator) (I : Set Instruction) (g' : Generator) (O : Set Instruction) :
    Prop where
  code : g.code.toList <+: g'.code.toList
  ran : I ⊆ O

theorem Behind.trans {g g' g'' : Generator} {I M O : Set Instruction} (h : Behind g I g' M)
    (h' : Behind g' M g'' O) : Behind g I g'' O :=
  ⟨h.code.trans h'.code, h.ran.trans h'.ran⟩

theorem Slot.Filled.behind {slot : Slot} {g g' : Generator} {I O : Set Instruction}
    (h : slot.Filled g I) (hb : Behind g I g' O) : slot.Filled g' O := h.mono hb.code hb.ran

theorem Slot.Filled.low {slot : Slot} {g : Generator} {I : Set Instruction}
    (h : slot.Filled g I) : Initialised g.code.toList I slot.low := h _ slot.low_mem_parts

theorem Slot.Filled.high {slot : Slot} {g : Generator} {I : Set Instruction}
    (h : slot.Filled g I) (ht : slot.type = .range) : Initialised g.code.toList I slot.high := by
  refine h _ ?_
  rw [Slot.parts, if_pos ht]
  exact List.mem_cons_of_mem _ (List.mem_singleton_self _)

/-- What was blank is blank. -/
def Spares (g g' : Generator) : Prop := ∀ slot : Slot, slot.Blank g → slot.Blank g'

theorem Spares.refl (g : Generator) : Spares g g := fun _ h => h

theorem Spares.trans {g g' g'' : Generator} (h : Spares g g') (h' : Spares g' g'') :
    Spares g g'' := fun slot hs => h' slot (h slot hs)

namespace Gen

variable {α β : Type} {k k' k'' : Bindings} {p : α → Generator → Set Instruction → Prop}
  {q : β → Generator → Set Instruction → Prop} {x : Gen α} {f : α → Gen β}
  {g g' : Generator} {I O : Set Instruction}

/-- If the computation gives a result, the code it appends initialises what it reads, and
the result has a property where it ends. -/
def Settles (k k' : Bindings) (p : α → Generator → Set Instruction → Prop) (x : Gen α)
    (g : Generator) (I : Set Instruction) : Prop :=
  Ready k g I → ∀ a g', x g = .ok a g' →
    ∃ c O, Passes (fun _ => True) k k' g g' I c O ∧ p a g' O

/-- The code the computation appends, if it gives a result, initialises what it reads. -/
abbrev Settled (k k' : Bindings) (x : Gen α) (g : Generator) (I : Set Instruction) : Prop :=
  Settles k k' (fun _ _ _ => True) x g I

namespace Settles

theorem known (h : Ready k g I → Settles k k' p x g I) : Settles k k' p x g I := fun hr => h hr hr

/-- Nothing is done, but more is known. -/
theorem still {a : α} (hr : Ready k' g I) (ht : Turns k k' g g) (h : p a g I) :
    Settles k k' p (Pure.pure a) g I := by
  rintro - _ _ ⟨⟩
  exact ⟨[], I, ⟨Array.appendList_nil.symm, Generator.Adds.extends (.refl g), Nat.le_refl _, ht,
    subset_rfl, hr, fun _ => ∅, fun _ _ _ _ _ _ => subset_rfl⟩, h⟩

theorem pure {a : α} (h : p a g I) : Settles k k p (Pure.pure a) g I :=
  .known fun hr => .still hr (.same (fun _ => rfl) rfl id) h

theorem bind (hx : Settles k k' p x g I)
    (hf : ∀ a g' O, x g = .ok a g' → Behind g I g' O → p a g' O →
      Settles k' k'' q (f a) g' O) : Settles k k'' q (x >>= f) g I := by
  intro hr b g'' hb
  obtain ⟨a, g', ha, hb⟩ := bind_ok.mp hb
  obtain ⟨c, M, hc, hp⟩ := hx hr a g' ha
  obtain ⟨d, O, hd, hq⟩ := hf a g' M ha ⟨prefix_of_code hc.code, hc.ran⟩ hp hc.ready b g'' hb
  exact ⟨c ++ d, O, hc.append hd, hq⟩

theorem map {f : α → β} (hx : Settled k k' x g I) : Settled k k' (f <$> x) g I := by
  intro hr b g' h
  obtain ⟨a, ha, -⟩ := map_ok.mp h
  exact hx hr a g' ha

theorem bindGet {f : Generator → Gen β} (h : Settles k k' q (f g) g I) :
    Settles k k' q (get >>= f) g I := h

/-- What comes next does not depend on what came before. -/
theorem andThen (hx : Settles k k' p x g I) (hf : ∀ a g' O, Settles k' k'' q (f a) g' O) :
    Settles k k'' q (x >>= f) g I :=
  hx.bind fun a g' O _ _ _ => hf a g' O

theorem weaken {r : α → Generator → Set Instruction → Prop} (hx : Settles k k' p x g I)
    (h : ∀ a g' O, p a g' O → r a g' O) : Settles k k' r x g I := by
  intro hr a g' ha
  obtain ⟨c, O, hc, hp⟩ := hx hr a g' ha
  exact ⟨c, O, hc, h a g' O hp⟩

/-- What a first part made, in a run that gives a result. -/
theorem run (hx : Settles k k' p x g I) (hr : Ready k g I) {b : β} {g'' : Generator}
    (h : (x >>= f) g = .ok b g'') : ∃ a g' c O, Passes (fun _ => True) k k' g g' I c O ∧
      p a g' O ∧ f a g' = .ok b g'' := by
  obtain ⟨a, g', ha, hb⟩ := bind_ok.mp h
  obtain ⟨c, O, hc, hp⟩ := hx hr a g' ha
  exact ⟨a, g', c, O, hc, hp, hb⟩

/-- Names and code are not changed, and no labels are taken back. -/
theorem modified {f : Generator → Generator} {d : List Fault} (ha : g.Adds d (f g))
    (hl : g.labels ≤ (f g).labels) (hc : (f g).code = g.code)
    (hu : (f g).frame.used = g.frame.used) :
    Settles k k (fun _ g' _ => Spares g g') (modify f : Gen Unit) g I := by
  rintro hr _ _ ⟨⟩
  have hcode : (f g).code = g.code ++ ([] : List Instruction) := by rw [hc, Array.appendList_nil]
  refine ⟨[], I, .of_adds hr ha hl hcode ?_ subset_rfl fun _ _ _ _ _ => subset_rfl,
    fun slot hs => hs.unchanged hcode hu fun _ h => absurd h List.not_mem_nil⟩
  rw [hc, hu]
  exact hr.orderly

/-- Only the code counts. -/
theorem settled (h : Settles k k' p x g I) : Settled k k' x g I :=
  h.weaken fun _ _ _ _ => trivial

end Settles

/-! ## Slots -/

theorem settled_emit {c : List Instruction} (h : ∀ i ∈ c, Proper g I i) :
    Settled k k (emit c) g I := by
  rintro hr _ _ ⟨⟩
  exact ⟨c, I, .proper hr h, trivial⟩

/-- Code that writes nothing leaves blank what is blank. -/
theorem settles_inert {c : List Instruction} (h : ∀ i ∈ c, Proper g I i)
    (hw : c.flatMap (·.stores) = []) : Settles k k (fun _ g' _ => Spares g g') (emit c) g I := by
  rintro hr _ _ ⟨⟩
  exact ⟨c, I, .proper hr h, fun slot hs =>
    hs.unchanged rfl rfl (List.flatMap_eq_nil_iff.mp hw)⟩

theorem settles_report (cause : Cause) (position : Position) :
    Settles k k (fun _ g' _ => Spares g g') (report cause position) g I :=
  .modified (d := [⟨cause, position⟩]) ⟨rfl, rfl, rfl, rfl, rfl, rfl, rfl⟩ (Nat.le_refl _)
    rfl rfl

theorem settles_internString (text : String) :
    Settles k k (fun _ g' _ => Spares g g') (internString text) g I := by
  refine .bindGet ?_
  dsimp only
  cases g.strings.idxOf? text with
  | some i => exact .pure (.refl g)
  | none =>
    refine Settles.bind (p := fun _ g' _ => Spares g g') ?_ fun _ _ _ _ _ h => .pure h
    exact .modified (.unnamed g ..) (Nat.le_refl _) rfl rfl

theorem settles_internFloat (bits : UInt64) :
    Settles k k (fun _ g' _ => Spares g g') (internFloat bits) g I := by
  refine .bindGet ?_
  dsimp only
  cases g.floats.idxOf? bits with
  | some i => exact .pure (.refl g)
  | none =>
    refine Settles.bind (p := fun _ g' _ => Spares g g') ?_ fun _ _ _ _ _ h => .pure h
    exact .modified (.unnamed g ..) (Nat.le_refl _) rfl rfl

/-- A slot without a name is handed out. -/
theorem settles_temporary (type : ValueType) :
    Settles k k (fun slot g' _ => slot.type = type ∧ slot.Blank g') (temporary type) g I := by
  rintro hr slot g' ⟨⟩
  have hblank : Slot.Blank (g.frame.fresh type true) { g with frame := g.frame.alloc type.size } :=
    hr.orderly.blank rfl rfl rfl
  have horderly := hr.orderly.mono (Int.le_add_of_nonneg_right (Int.natCast_nonneg type.size))
  exact ⟨[], I, .of_adds hr (.unnamed g ..) (Nat.le_refl _) Array.appendList_nil.symm horderly
    subset_rfl fun _ _ _ _ _ => subset_rfl, rfl, hblank⟩

/-- What the declaration of a name does. -/
structure Declared (name : String) (type : ValueType) (g : Generator) (slot : Slot)
    (g' : Generator) : Prop where
  type : slot.type = type
  location : slot.location = .frame (-(g.frame.used + slot.type.size))
  code : g'.code = g.code
  labels : g'.labels = g.labels
  used : g'.frame.used = g.frame.used + slot.type.size
  kept : g.Extends g'
  find? : ∀ other, g'.find? other = if other = name then some slot else g.find? other

theorem declared_declare {name : String} {type : ValueType} {mutable : Bool} {slot : Slot}
    (hr : g.Rooted) (hx : declare name type mutable g = .ok slot g') :
    Declared name type g slot g' := by
  obtain ⟨_, _, hx', hkept, -, -, hn⟩ := grows_declare hr name type mutable
  cases hx'.symm.trans hx
  have hslot : slot = g.frame.fresh type mutable := by
    cases hx
    rfl
  have hused : g'.frame.used = g.frame.used + type.size := by
    cases hx
    exact Frame.used_bind _ _ _
  subst hslot
  exact ⟨rfl, rfl, by cases hx; rfl, by cases hx; rfl, hused, hkept, hn⟩

/-- A slot is handed out, and bound to a name. -/
theorem settles_declare (name : String) (type : ValueType) (mutable : Bool) :
    Settles k (k.bind name)
      (fun slot g' _ => slot.type = type ∧ slot.Blank g' ∧ g'.find? name = some slot)
      (declare name type mutable) g I := by
  intro hr slot g' hx
  have h := declared_declare hr.rooted hx
  have hfound : g'.find? name = some slot := (h.find? name).trans (if_pos rfl)
  have hothers : ∀ other ∉ [name], g'.find? other = g.find? other := fun other ho =>
    (h.find? other).trans (if_neg (List.ne_of_not_mem_cons ho))
  have hbound : ∀ other, (g.find? other).isSome = true → (g'.find? other).isSome = true := by
    intro other ho
    rw [h.find?]
    split
    · rfl
    · exact ho
  have horderly : Orderly g'.code.toList g'.frame.used := by
    rw [h.code, h.used]
    exact hr.orderly.mono (Int.le_add_of_nonneg_right (Int.natCast_nonneg _))
  refine ⟨[], I, ⟨by rw [h.code, Array.appendList_nil], h.kept, Nat.le_of_eq h.labels.symm,
    ⟨[name], rfl, hothers, hbound, id⟩, subset_rfl, ⟨h.kept.rooted hr.rooted, horderly, ?_, ?_⟩,
    fun _ => ∅, fun _ _ _ _ _ _ => subset_rfl⟩, h.type,
    hr.orderly.blank h.location h.code h.used, hfound⟩
  · refine List.forall_mem_cons.mpr ⟨by rw [hfound]; rfl, fun other ho => ?_⟩
    exact hbound other (hr.bound other ho)
  · intro other ho slot hslot
    obtain ⟨hne, ho⟩ := not_or.mp (fun hm => ho (List.mem_cons.mpr hm))
    rw [hothers other (fun hm => hne (List.mem_singleton.mp hm))] at hslot
    exact (hr.settled other ho slot hslot).mono ⟨[], by rw [h.code, List.append_nil]⟩ subset_rfl

/-- A slot is filled. If it has a name, the name has strayed no more. -/
theorem passes_fill {P : (Label → Set Instruction) → Prop} {slot : Slot} {c : List Instruction}
    (hs : slot.Blank g) (hc : slot.FilledBy c) (hr : Ready k g I) (names : List String)
    (hn : ∀ name ∉ names, name ∉ k.strayed ∨ g.find? name = some slot) :
    Passes P k { k with strayed := names } g (g.emitting c) I c (I ∪ {i | i ∈ c}) ∧
      slot.Filled (g.emitting c) (I ∪ {i | i ∈ c}) := by
  have hfilled : slot.Filled (g.emitting c) (I ∪ {i | i ∈ c}) := hs.filled hc rfl
  have horderly : Orderly (g.emitting c).code.toList g.frame.used := by
    rw [g.toList_emitting]
    refine hr.orderly.append (Int.le_refl _) (fun i hi n _ hm => ?_) fun i hi m hf hm => ?_
    · exact hs.within n (hc.stores i hi _ hm)
    · refine ⟨hs.unwritten m (hc.stores i hi m ?_) hf, hc.zeroed i hi m hm⟩
      rw [Instruction.eq_of_zeroed? hm]
      exact List.mem_singleton_self m
  refine ⟨⟨rfl, (g.adds_emitting c).extends, Nat.le_refl _, .same (fun _ => rfl) rfl id,
    Set.subset_union_left, ⟨hr.rooted, horderly, hr.bound, fun name hname s hslot => ?_⟩,
    fun _ => ∅, fun J _ _ _ all _ => ?_⟩, hfilled⟩
  · rcases hn name hname with hold | hnew
    · exact (hr.settled name hold s hslot).mono (prefix_of_code rfl) Set.subset_union_left
    · cases hnew.symm.trans hslot
      exact hfilled
  · exact flow_inert fun i hi => hc.inert i hi

theorem settles_fill {slot : Slot} {c : List Instruction} (hs : slot.Blank g)
    (hc : slot.FilledBy c) : Settles k k (fun _ g' O => slot.Filled g' O) (emit c) g I := by
  rintro hr _ _ ⟨⟩
  obtain ⟨hpasses, hfilled⟩ := passes_fill hs hc hr k.strayed fun _ h => .inl h
  exact ⟨c, _, hpasses, hfilled⟩

/-- The slot of a name is filled. -/
theorem settles_fillNamed {name : String} {slot : Slot} {c : List Instruction}
    (hs : slot.Blank g) (hn : g.find? name = some slot) (hc : slot.FilledBy c) :
    Settles k (k.fill name) (fun _ g' O => slot.Filled g' O) (emit c) g I := by
  rintro hr _ _ ⟨⟩
  obtain ⟨hpasses, hfilled⟩ := passes_fill hs hc hr
    (k.strayed.filter (· ≠ name)) fun other ho => by
      by_cases he : other = name
      · exact .inr (by rw [he, hn])
      · refine .inl fun hm => ho (List.mem_filter.mpr ⟨hm, ?_⟩)
        simpa using he
  exact ⟨c, _, hpasses, hfilled⟩

theorem emit_append (c d : List Instruction) : emit (c ++ d) = (do emit c; emit d) := by
  funext g
  change EStateM.Result.ok () { g with code := g.code ++ (c ++ d) } =
    .ok () { g with code := g.code ++ c ++ d }
  rw [show g.code ++ (c ++ d) = g.code ++ c ++ d from Array.ext' (by simp)]

/-- Slots are handed out whatever is emitted. -/
theorem temporary_emit (type : ValueType) (c : List Instruction) (d : Slot → List Instruction) :
    (do
      let slot ← temporary type
      emit (c ++ d slot)) = (do
      emit c
      let slot ← temporary type
      emit (d slot)) := by
  funext g
  exact congrArg (fun x : Gen Unit => x { g with frame := g.frame.alloc type.size })
    (emit_append c (d (g.frame.fresh type true)))

/-- A slot is filled in between. -/
theorem settles_through {slot : Slot} {before fill after : List Instruction} (hs : slot.Blank g)
    (hb : ∀ i ∈ before, Proper g I i) (hw : before.flatMap (·.stores) = [])
    (hf : slot.FilledBy fill) (ha : ∀ g' O, Behind g I g' O → slot.Filled g' O →
      ∀ i ∈ after, Proper g' O i) :
    Settles k k (fun _ g' O => slot.Filled g' O) (emit (before ++ (fill ++ after))) g I := by
  rw [emit_append, emit_append]
  refine (settles_inert hb hw).bind fun _ g₁ M _ h₁ hspare => ?_
  refine (settles_fill (hspare slot hs) hf).bind fun _ g₂ O _ h₂ hs₂ => ?_
  rintro hr _ _ ⟨⟩
  exact ⟨after, O, .proper hr (ha g₂ O (h₁.trans h₂) hs₂), hs₂.mono (prefix_of_code rfl) subset_rfl⟩

/-- The result is kept in a slot without a name. -/
theorem settles_spill (type : ValueType) :
    Settles k k (fun slot g' O => slot.type = type ∧ slot.Filled g' O) (spill type) g I :=
  (settles_temporary type).bind fun slot _ _ _ _ hs =>
    (settles_fill hs.2 slot.filledBy_storeCode).bind fun _ _ _ _ _ hf => .pure ⟨hs.1, hf⟩

/-! ## Results -/

theorem settles_emitZero (type : ValueType) :
    Settles k k (fun _ g' _ => Spares g g') (emitZero type) g I := by
  cases type with
  | string =>
    refine (settles_internString "").bind fun l _ _ _ _ h => ?_
    exact (settles_inert (proper_bare rfl rfl) rfl).weaken fun _ _ _ h' => h.trans h'
  | _ => exact settles_inert (proper_bare rfl rfl) rfl

theorem settles_emitCoercion (source target : ValueType) (position : Position) :
    Settles k k (fun _ g' _ => Spares g g') (emitCoercion source target position) g I := by
  unfold emitCoercion
  split
  · exact .pure (.refl g)
  · split
    · exact settles_inert (proper_bare rfl rfl) rfl
    · exact settles_inert (proper_bare rfl rfl) rfl
    · exact (settles_report _ position).bind fun _ _ _ _ _ h =>
        (settles_emitZero target).weaken fun _ _ _ h' => h.trans h'

theorem proper_loadCode {slot : Slot} (h : slot.Filled g I) :
    ∀ i ∈ slot.loadCode, Proper g I i := by
  have hlow := List.forall_mem_singleton.mpr h.low
  unfold Slot.loadCode
  split
  · exact proper_straight rfl hlow
  · next ht => exact proper_straight rfl (List.forall_mem_cons.mpr
      ⟨h.low, List.forall_mem_singleton.mpr (h.high ht)⟩)
  · exact proper_straight rfl hlow

theorem settled_emitFormatted (format : Format) (type : ValueType)
    {arguments : Slot → List Instruction}
    (h : ∀ (g : Generator) (I : Set Instruction) (value : Slot), value.type = type →
      value.Filled g I → ∀ i ∈ arguments value, Proper g I i) :
    Settled k k (emitFormatted format type arguments) g I := by
  refine (settles_spill type).bind fun value _ _ _ _ hv => ?_
  refine (settles_temporary .string).bind fun buffer g₂ O _ h₂ hb => ?_
  have hfill : buffer.FilledBy [.move (.register .rax) (.memory buffer.low)] :=
    Slot.filledBy_store (by simp [hb.1]) rfl ⟨rfl, rfl, rfl, rfl⟩
  have hmade : Settles k k (fun _ g' O => buffer.Filled g' O)
      (emit ([Instruction.moveLong 48 .rdi, .callLibrary .malloc] ++
        ([Instruction.move (.register .rax) (.memory buffer.low)] ++
          [Instruction.move (.register .rax) (.register .rdi),
            .address (.format format false) .rsi])))
      g₂ O := settles_through hb.2 (proper_bare rfl rfl) rfl hfill
        fun _ _ _ _ => proper_bare rfl rfl
  refine hmade.bind fun _ _ _ _ h₃ hbuffer => ?_
  refine (settled_emit (h _ _ value hv.1 (hv.2.behind (h₂.trans h₃)))).bind fun _ _ _ _ h₄ _ => ?_
  exact settled_emit (proper_straight rfl
    (List.forall_mem_singleton.mpr (hbuffer.behind h₄).low))

theorem settled_emitText (type : ValueType) : Settled k k (emitText type) g I := by
  cases type with
  | string => exact .pure trivial
  | boolean => exact settled_emit (proper_bare rfl rfl)
  | integer | float =>
    exact settled_emitFormatted _ _ fun _ _ _ _ hv =>
      proper_straight rfl (List.forall_mem_singleton.mpr hv.low)
  | range =>
    exact settled_emitFormatted _ _ fun _ _ _ ht hv => proper_straight rfl
      (List.forall_mem_cons.mpr ⟨hv.low, List.forall_mem_singleton.mpr (hv.high ht)⟩)

/-- The slot of a name that is sought is filled. -/
theorem settles_resolve {name : String} (hk : k.use name = some k') (position : Position) :
    Settles k k' (fun slot g' O => slot.Filled g' O) (resolve name position) g I := by
  obtain ⟨hmet, rfl⟩ : name ∉ k.strayed ∧ (if name ∈ k.bound then k else k.declare name) = k' := by
    unfold Bindings.use Bindings.meet at hk
    split at hk
    · cases hk
    · next hmet => exact ⟨hmet, Option.some.inj hk⟩
  unfold resolve
  refine .bindGet ?_
  cases hf : g.find? name with
  | some slot =>
    refine .known fun hr => .still ?_ ?_ (hr.settled name hmet slot hf)
    · split
      · exact hr
      · exact hr.declare hf (hr.settled name hmet slot hf)
    · split
      · exact .same (fun _ => rfl) rfl id
      · exact ⟨[name], rfl, fun _ _ => rfl, fun _ => id, id⟩
  | none =>
    refine .known fun hr => ?_
    rw [if_neg fun hb => by simpa [hf] using hr.bound name hb]
    refine (settles_report _ position).andThen fun _ _ _ => ?_
    refine (settles_declare name .integer true).bind fun slot _ _ _ _ hs => ?_
    have hfill : slot.FilledBy [.move (.immediate 0) (.memory slot.low)] :=
      Slot.filledBy_store (by simp [hs.1]) rfl ⟨rfl, rfl, rfl, rfl⟩
    exact (settles_fillNamed hs.2.1 hs.2.2 hfill).bind fun _ _ _ _ _ hfilled => .pure hfilled

/-! ## Operators -/

variable {left : Slot}

/-- The code of a join that gives the length of both texts, and room for the end, to
`malloc`. -/
def joinLengths (leftText rightText length : Slot) : List Instruction :=
  [Instruction.move (.memory leftText.low) (.register .rdi), .callLibrary .strlen] ++
  ([Instruction.move (.register .rax) (.memory length.low)] ++
  [Instruction.move (.memory rightText.low) (.register .rdi), .callLibrary .strlen,
    .integer .add (.memory length.low) .rax, .addressOffset 1 .rax .rdi, .callLibrary .malloc])

/-- The code of a join that fills the buffer. -/
def joinTexts (leftText rightText buffer : Slot) : List Instruction :=
  [] ++ ([Instruction.move (.register .rax) (.memory buffer.low)] ++
  [Instruction.move (.register .rax) (.register .rdi),
    .move (.memory leftText.low) (.register .rsi),
    .callLibrary .strcpy, .move (.memory buffer.low) (.register .rdi),
    .move (.memory rightText.low) (.register .rsi), .callLibrary .strcat,
    .move (.memory buffer.low) (.register .rax)])

/-- The buffer is there when the length is kept, whenever its slot is handed out. -/
theorem emitJoin_eq (left : Slot) (right : ValueType) : emitJoin left right = (do
    emitText right
    let rightText ← spill .string
    emit left.loadCode
    emitText left.type
    let leftText ← spill .string
    let length ← temporary .integer
    emit (joinLengths leftText rightText length)
    let buffer ← temporary .string
    emit (joinTexts leftText rightText buffer)) := by
  simp only [← temporary_emit, joinLengths, joinTexts, List.cons_append, List.nil_append]
  rfl

theorem settled_emitJoin (hl : left.Filled g I) (right : ValueType) :
    Settled k k (emitJoin left right) g I := by
  rw [emitJoin_eq]
  refine (settled_emitText right).bind fun _ _ _ _ h₁ _ => ?_
  refine (settles_spill .string).bind fun rightText _ _ _ h₂ hr => ?_
  have hl₂ := hl.behind (h₁.trans h₂)
  refine (settled_emit (proper_loadCode hl₂)).bind fun _ _ _ _ h₃ _ => ?_
  refine (settled_emitText left.type).bind fun _ _ _ _ h₄ _ => ?_
  refine (settles_spill .string).bind fun leftText _ _ _ h₅ hleft => ?_
  refine (settles_temporary .integer).bind fun length _ _ _ h₆ hlength => ?_
  have hleft := hleft.2.behind h₆
  have hr := hr.2.behind (((h₃.trans h₄).trans h₅).trans h₆)
  refine (settles_through hlength.2 ?_ rfl (Slot.filledBy_store (by simp [hlength.1]) rfl
    ⟨rfl, rfl, rfl, rfl⟩) fun _ _ hb hfilled => ?_).bind fun _ _ _ _ h₇ _ => ?_
  · exact proper_straight rfl (List.forall_mem_singleton.mpr hleft.low)
  · exact proper_straight rfl (List.forall_mem_cons.mpr
      ⟨(hr.behind hb).low, List.forall_mem_singleton.mpr hfilled.low⟩)
  refine (settles_temporary .string).bind fun buffer _ _ _ h₈ hbuffer => ?_
  have hleft := hleft.behind (h₇.trans h₈)
  have hr := hr.behind (h₇.trans h₈)
  refine (settles_through hbuffer.2 (List.forall_mem_nil _) rfl (Slot.filledBy_store
    (by simp [hbuffer.1]) rfl ⟨rfl, rfl, rfl, rfl⟩) fun _ _ hb hfilled => ?_).weaken
      fun _ _ _ _ => trivial
  exact proper_straight rfl (List.forall_mem_cons.mpr ⟨(hleft.behind hb).low,
    List.forall_mem_cons.mpr ⟨hfilled.low, List.forall_mem_cons.mpr ⟨(hr.behind hb).low,
      List.forall_mem_singleton.mpr hfilled.low⟩⟩⟩)

theorem passes_divide {operator : Arithmetic} (h : operator.divides = true) (hr : Ready k g I) :
    Passes (fun _ => True) k k g
      (g.numbered.emitting (operator.integerCode (g.labels + 1))) I
      (operator.integerCode (g.labels + 1)) I := by
  refine Passes.own (P := fun J => ∀ mark, J (.numbered mark (g.labels + 1)) = I)
    (.emitting hr.numbered ?_ subset_rfl fun J hJ hallows all _ => ?_) (s := fun _ => I)
    fun _ h => h
  · cases operator <;> cases h
    all_goals simp [Arithmetic.integerCode, Modest]
  · have htrap : ∀ t, J (.trap t) = ∅ := fun t => hallows.outside _ (by simp)
    cases operator <;> cases h
    all_goals
      simp +contextual [Arithmetic.integerCode, Flows, Instruction.after, hJ, htrap, Set.subset_def]

theorem settled_emitIntegerArithmetic (operator : Arithmetic) (hl : left.Filled g I) :
    Settled k k (emitIntegerArithmetic operator left) g I := by
  have hload : ∀ i ∈ [Instruction.move (.register .rax) (.register .rcx)] ++ left.loadCode,
      Proper g I i :=
    List.forall_mem_append.mpr ⟨proper_bare rfl rfl, proper_loadCode hl⟩
  refine (settled_emit hload).andThen fun _ g' O => ?_
  cases operator with
  | divide | modulo =>
    rintro hr _ _ ⟨⟩
    exact ⟨_, _, passes_divide rfl hr, trivial⟩
  | _ =>
    refine (Settles.pure (p := fun _ _ _ => True) trivial).andThen fun _ _ _ => ?_
    exact settled_emit (proper_bare rfl rfl)

theorem proper_floatOperands (hl : left.Filled g I) (right : ValueType) :
    ∀ i ∈ floatOperands left right, Proper g I i := by
  have hconvert : ∀ type : ValueType,
      ∀ i ∈ (if type = .integer then [Instruction.toFloat .rax .xmm0] else []), Proper g I i := by
    intro type
    split <;> exact proper_bare rfl rfl
  exact List.forall_mem_append.mpr ⟨List.forall_mem_append.mpr
    ⟨List.forall_mem_append.mpr ⟨hconvert right, proper_bare rfl rfl⟩, proper_loadCode hl⟩,
      hconvert _⟩

theorem settled_emitArithmetic (operator : Arithmetic) (hl : left.Filled g I)
    (right : ValueType) (position : Position) :
    Settled k k (emitArithmetic operator left right position) g I := by
  unfold emitArithmetic
  split
  · exact (settled_emitJoin hl right).andThen fun _ _ _ => .pure trivial
  split
  · exact (settled_emitIntegerArithmetic operator hl).andThen fun _ _ _ => .pure trivial
  split
  · refine (settled_emit (List.forall_mem_append.mpr
      ⟨proper_floatOperands hl right, ?_⟩)).andThen fun _ _ _ => .pure trivial
    cases operator <;> exact proper_bare rfl rfl
  · refine (settles_report _ position).andThen fun _ _ _ => ?_
    exact (settled_emit (proper_bare rfl rfl)).andThen fun _ _ _ => .pure trivial

theorem proper_code_of_comparison {operator : Comparison} (hl : left.Filled g I)
    {right : ValueType} {code : List Instruction} (h : operator.code left right = .ok code) :
    ∀ i ∈ code, Proper g I i := by
  have hload := proper_loadCode hl
  unfold Comparison.code at h
  split at h
  · cases h
    exact List.forall_mem_append.mpr
      ⟨List.forall_mem_append.mpr ⟨proper_bare rfl rfl, hload⟩, proper_bare rfl rfl⟩
  · cases h
    exact List.forall_mem_append.mpr
      ⟨List.forall_mem_append.mpr ⟨proper_bare rfl rfl, hload⟩, proper_bare rfl rfl⟩
  · cases h
    exact List.forall_mem_append.mpr
      ⟨List.forall_mem_append.mpr ⟨proper_bare rfl rfl, hload⟩, proper_bare rfl rfl⟩
  · have hrange : ∀ opposite, ∀ i ∈ Comparison.rangeCode opposite left, Proper g I i := by
      intro opposite
      refine List.forall_mem_append.mpr ⟨List.forall_mem_append.mpr
        ⟨List.forall_mem_append.mpr ⟨proper_bare rfl rfl, hload⟩, proper_bare rfl rfl⟩, ?_⟩
      split <;> exact proper_bare rfl rfl
    cases operator <;> cases h
    · exact hrange false
    · exact hrange true
  · split at h
    · cases h
      refine List.forall_mem_append.mpr ⟨proper_floatOperands hl _, ?_⟩
      cases operator <;> exact proper_bare rfl rfl
    · cases h

theorem settled_emitComparison (operator : Comparison) (hl : left.Filled g I)
    (right : ValueType) (position : Position) :
    Settled k k (emitComparison operator left right position) g I := by
  have hend : ∀ g I, Settled k k (do
      emit [.extendByte .rax .rax]
      return ValueType.boolean) g I := fun g I =>
    (settled_emit (proper_bare rfl rfl)).andThen fun _ _ _ => .pure trivial
  unfold emitComparison
  cases hc : operator.code left right with
  | ok code =>
    exact (settled_emit (proper_code_of_comparison hl hc)).andThen fun _ _ _ => hend _ _
  | error cause =>
    exact (settles_report cause position).andThen fun _ _ _ =>
      (settled_emit (proper_bare rfl rfl)).andThen fun _ _ _ => hend _ _

theorem proper_truthCode (type : ValueType) : ∀ i ∈ type.truthCode, Proper g I i := by
  cases type with
  | string => exact proper_straight rfl (List.forall_mem_singleton.mpr False.elim)
  | _ => exact proper_bare rfl rfl

theorem settled_emitBinary (operator : BinaryOperator) (hl : left.Filled g I)
    (right : ValueType) (position : Position) :
    Settled k k (emitBinary operator left right position) g I := by
  cases operator with
  | arithmetic o => exact settled_emitArithmetic o hl right position
  | comparison o => exact settled_emitComparison o hl right position
  | logical o =>
    refine (settled_emit ?_).andThen fun _ _ _ => .pure trivial
    exact List.forall_mem_append.mpr ⟨List.forall_mem_append.mpr ⟨List.forall_mem_append.mpr
      ⟨List.forall_mem_append.mpr ⟨proper_truthCode right, proper_bare rfl rfl⟩,
        proper_loadCode hl⟩, proper_truthCode _⟩, proper_bare rfl rfl⟩

theorem settled_emitUnary (operator : UnaryOperator) (operand : ValueType)
    (position : Position) : Settled k k (emitUnary operator operand position) g I := by
  have hcode : ∀ {code : List Instruction} {type : ValueType}, (∀ i ∈ code, Proper g I i) →
      Settled k k (do
        emit code
        return type) g I := fun h => (settled_emit h).andThen fun _ _ _ => .pure trivial
  have hreport : ∀ o : UnaryOperator, Settled k k (do
      unless operand.isNumeric do reportInvalid o.symbol operand operand position
      return operand) g I := by
    intro o
    cases operand.isNumeric with
    | true =>
      exact Settles.andThen (p := fun _ _ _ => True) (.pure trivial) fun _ _ _ => .pure trivial
    | false => exact (settles_report _ position).andThen fun _ _ _ => .pure trivial
  unfold emitUnary
  split
  · exact hcode (List.forall_mem_append.mpr ⟨proper_truthCode _, proper_bare rfl rfl⟩)
  · exact hcode (proper_bare rfl rfl)
  · exact hcode (proper_bare rfl rfl)
  · exact hreport _

/-- A variable that has a value is stepped. -/
theorem settled_emitStep (name : String) {slot : Slot} (h : slot.Filled g I)
    (increment : Bool) (position : Position) :
    Settled k k (emitStep name slot increment position) g I := by
  have hfinish : ∀ {g I} {store : Instruction}, (∀ i ∈ [store], Proper g I i) →
      Settled k k (if slot.mutable then emit [store] else report (.valReassignment name) position)
        g I := by
    intro g I store hstore
    split
    · exact settled_emit hstore
    · exact (settles_report _ position).settled
  obtain ⟨location, type, mutable⟩ := slot
  cases type with
  | integer =>
    refine (settled_emit (proper_bare rfl rfl)).bind fun _ _ _ _ hb _ => ?_
    exact hfinish (proper_straight rfl (List.forall_mem_singleton.mpr (h.behind hb).low))
  | float =>
    refine (settles_internFloat _).bind fun one _ _ _ hb _ => ?_
    refine (settled_emit ?_).bind fun _ _ _ _ hb' _ => hfinish ?_
    · exact proper_straight rfl (List.forall_mem_singleton.mpr (initialised_data one 0))
    · exact proper_straight rfl (List.forall_mem_singleton.mpr (h.behind (hb.trans hb')).low)
  | _ => exact .pure trivial

theorem settled_emitStepValue (step : Step) {name : String} (hk : k.use name = some k')
    (position : Position) : Settled k k' (emitStepValue step name position) g I := by
  refine (settles_resolve hk position).bind fun slot _ _ _ _ hslot => ?_
  refine (settled_emit (proper_loadCode hslot)).bind fun _ _ _ _ hb _ => ?_
  refine (settled_emitStep name (hslot.behind hb) _ position).andThen fun _ _ _ => ?_
  have hmove : ∀ {i : Instruction} (g I), (∀ j ∈ [i], Proper g I j) → Settled k' k' (do
      emit [i]
      return slot.type) g I := fun g I hi =>
    (settled_emit hi).andThen fun _ _ _ => .pure trivial
  split
  · split
    · exact hmove _ _ (proper_bare rfl rfl)
    · exact hmove _ _ (proper_bare rfl rfl)
    · exact Settles.andThen (p := fun _ _ _ => True) (.pure trivial) fun _ _ _ => .pure trivial
  · exact .pure trivial

end Gen

end ScriptLang
