import ScriptLang.Proofs.Codegen.Reference

/-!
# The layout of frames

Code writes to variables that are known where it starts and to slots that it is handed
itself. So what was stored before in a slot without a name is still there behind it. The
frame of a whole function is as large as its slots need.
-/

namespace ScriptLang

open Assembly Gen

namespace Generator

variable {g g' g'' : Generator} {slot : Slot} {m : Memory}

/-- The memory belongs to a variable that is known at first, or was handed out since. -/
def Grants (g g' : Generator) (m : Memory) : Prop :=
  (∃ slot, g.Names slot ∧ m ∈ slot.parts) ∨
    ∃ n, m = .frame n ∧ -g'.frame.used ≤ n ∧ n + 8 ≤ -g.frame.used

theorem Grants.later (h : g.Grants g' m) (hu : g'.frame.used ≤ g''.frame.used) :
    g.Grants g'' m :=
  h.imp_right fun ⟨n, hm, hlow, hhigh⟩ => ⟨n, hm, by omega, hhigh⟩

theorem Grants.ofNames (h : g.Names slot) (hm : m ∈ slot.parts) : g.Grants g' m :=
  .inl ⟨slot, h, hm⟩

/-- The slot that is handed out next is granted. -/
theorem Grants.ofFresh {type : ValueType} {mutable : Bool}
    (hm : m ∈ (g.frame.fresh type mutable).parts)
    (hu : g'.frame.used = g.frame.used + type.size) : g.Grants g' m := by
  obtain ⟨n, rfl, hlow, hhigh⟩ := Slot.part_frame hm rfl
  refine .inr ⟨n, rfl, ?_, ?_⟩
  · rw [hu]
    exact hlow
  · simp only [Frame.fresh, Frame.offset] at hhigh
    omega

/-- What has a name in the frame, and what code writes there, was handed out. -/
structure Enclosed (g : Generator) : Prop where
  names : ∀ slot, g.Names slot → ∀ n, .frame n ∈ slot.parts → -g.frame.used ≤ n
  stores : ∀ i ∈ g.code.toList, ∀ n, .frame n ∈ i.stores → -g.frame.used ≤ n

/-- The memory was handed out and belongs to no variable. -/
structure Hides (g : Generator) (m : Memory) : Prop where
  handed : ∃ n, m = .frame n ∧ -g.frame.used ≤ n
  unnamed : ∀ slot, g.Names slot → m ∉ slot.parts

/-- What was handed out without a name is not granted again. -/
theorem Hides.not_grants (h : g.Hides m) : ¬ g.Grants g' m := by
  obtain ⟨n, hn, hlow⟩ := h.handed
  rintro (⟨slot, hs, hm⟩ | ⟨k, hk, -, hhigh⟩)
  · exact h.unnamed slot hs hm
  · cases hn.symm.trans hk
    omega

/-- From the first state to the second this code was appended. It writes to variables that are
known at first and to what was handed out since, and so to nothing that was handed out before
without a name. -/
structure Confined (g : Generator) (c : List Instruction) (g' : Generator) : Prop where
  code : g'.code = g.code ++ c
  stores : ∀ i ∈ c, ∀ m ∈ i.stores, g.Grants g' m
  encloses : g.Enclosed → g'.Enclosed
  spares : ∀ m, g.Hides m → g'.Hides m ∧ ∀ i ∈ c, m ∉ i.stores

/-- The slot was handed out, without a name. No code in front writes to it. -/
structure HandsOut (g : Generator) (slot : Slot) (g' : Generator) : Prop where
  code : g'.code = g.code
  encloses : g'.Enclosed
  untouched : ∀ m ∈ slot.parts, ∀ i ∈ g.code.toList, m ∉ i.stores
  hides : ∀ m ∈ slot.parts, g'.Hides m

end Generator

namespace Stage

variable {s : Stage} {slot : Slot}

theorem names_declaring_cases {name : String} {type : ValueType} {mutable : Bool}
    (h : (s.declaring name type mutable).generator.Names slot) :
    slot = s.generator.frame.fresh type mutable ∨ s.generator.Names slot := by
  rcases h with ⟨scope, hs, other, hn⟩ | ⟨other, hn⟩
  · rcases mem_scopes_declaring hs with hs | ⟨inner, hin, rfl⟩
    · exact .inr (.inl ⟨scope, hs, other, hn⟩)
    · rw [NameMap.find?_insert] at hn
      split at hn
      · cases hn
        exact .inl rfl
      · exact .inr (.inl ⟨inner, hin, other, hn⟩)
  · exact .inr (.inr ⟨other, hn⟩)

theorem names_pushed_cases (h : s.pushed.generator.Names slot) : s.generator.Names slot := by
  rcases h with ⟨scope, hs, other, hn⟩ | h
  · rcases List.mem_cons.mp hs with rfl | hs
    · cases hn
    · exact .inl ⟨scope, hs, other, hn⟩
  · exact .inr h

theorem names_popped_cases (h : s.popped.generator.Names slot) : s.generator.Names slot := by
  rcases h with ⟨scope, hs, other, hn⟩ | h
  · exact .inl ⟨scope, mem_scopes_popped hs, other, hn⟩
  · exact .inr h

end Stage

/-- What has a name behind the code was granted, and so was what the code writes to. -/
structure Fenced (s t : Stage) (c : List Instruction) : Prop where
  used : s.generator.frame.used ≤ t.generator.frame.used
  names : ∀ slot, t.generator.Names slot → ∀ m ∈ slot.parts, s.generator.Grants t.generator m
  stores : ∀ i ∈ c, ∀ m ∈ i.stores, s.generator.Grants t.generator m

namespace Fenced

variable {s s' t t' u : Stage} {c d : List Instruction} {m : Memory}

theorem congr (h : Fenced s t c) (hs : s'.generator.frame = s.generator.frame)
    (hs' : s'.generator.globals = s.generator.globals)
    (ht : t'.generator.frame = t.generator.frame)
    (ht' : t'.generator.globals = t.generator.globals) : Fenced s' t' c := by
  obtain ⟨hu, hn, hw⟩ := h
  unfold Generator.Grants Generator.Names at hn hw
  constructor <;> (try unfold Generator.Grants Generator.Names) <;> rw [hs, ht]
  · exact hu
  · rw [hs', ht']
    exact hn
  · rw [hs']
    exact hw

/-- What is granted behind some code was granted in front of it. -/
theorem earlier (h : Fenced s t c) (hu : t.generator.frame.used ≤ u.generator.frame.used)
    (hm : t.generator.Grants u.generator m) : s.generator.Grants u.generator m := by
  rcases hm with ⟨slot, hs, hm⟩ | ⟨n, rfl, hlow, hhigh⟩
  · exact (h.names slot hs m hm).later hu
  · exact .inr ⟨n, rfl, hlow, Int.le_trans hhigh (Int.neg_le_neg h.used)⟩

theorem append (h : Fenced s t c) (h' : Fenced t u d) : Fenced s u (c ++ d) where
  used := Int.le_trans h.used h'.used
  names slot hs m hm := h.earlier h'.used (h'.names slot hs m hm)
  stores := List.forall_mem_append.mpr
    ⟨fun i hi m hm => (h.stores i hi m hm).later h'.used,
      fun i hi m hm => h.earlier h'.used (h'.stores i hi m hm)⟩

/-- Code that only writes what was granted before. -/
theorem extend (h : Fenced s t c) (hd : ∀ i ∈ d, ∀ m ∈ i.stores, s.generator.Grants t.generator m) :
    Fenced s t (c ++ d) :=
  ⟨h.used, h.names, List.forall_mem_append.mpr ⟨h.stores, hd⟩⟩

theorem silent (h : Fenced s t c) (hd : ∀ i ∈ d, i.stores = []) : Fenced s t (c ++ d) :=
  h.extend fun i hi m hm => by
    rw [hd i hi] at hm
    cases hm

/-- Names stay, or some are dropped. -/
theorem dropped (hn : ∀ slot, t.generator.Names slot → s.generator.Names slot)
    (hu : s.generator.frame.used ≤ t.generator.frame.used) : Fenced s t [] :=
  ⟨hu, fun slot hs _ => .ofNames (hn slot hs), List.forall_mem_nil _⟩

theorem refl (s : Stage) : Fenced s s [] := dropped (fun _ => id) (Int.le_refl _)

theorem popped (s : Stage) : Fenced s s.popped [] :=
  dropped (fun _ => Stage.names_popped_cases) (Int.le_of_eq (Frame.used_pop _).symm)

theorem pushed (s : Stage) : Fenced s s.pushed [] :=
  dropped (fun _ => Stage.names_pushed_cases) (Int.le_refl _)

theorem declaring (s : Stage) (name : String) (type : ValueType) (mutable : Bool) :
    Fenced s (s.declaring name type mutable) [] where
  used := (Stage.Before.declaring s name type mutable).used
  names slot hs m hm := by
    rcases Stage.names_declaring_cases hs with rfl | hs
    · exact .ofFresh hm (Frame.used_bind _ _ _)
    · exact .ofNames hs hm
  stores := List.forall_mem_nil _

theorem fill (s : Stage) {type : ValueType} (purpose : Purpose) (h : (s.fresh type).Fills c) :
    Fenced s (s.handing type purpose) c where
  used := (Stage.Before.handing s type purpose).used
  names _ hs _ := .ofNames hs
  stores i hi m hm :=
    .ofFresh (h.memories i hi m (Instruction.memories_of_stores hm)) rfl

theorem hides (h : Fenced s t c) (hm : s.generator.Hides m) : t.generator.Hides m where
  handed := by
    obtain ⟨n, hn, hlow⟩ := hm.handed
    have hused := h.used
    exact ⟨n, hn, by omega⟩
  unnamed slot hs hmem := hm.not_grants (h.names slot hs m hmem)

theorem encloses (h : Fenced s t c) (hc : t.generator.code = s.generator.code ++ c)
    (hs : s.generator.Enclosed) : t.generator.Enclosed := by
  have hused := h.used
  have hlow : ∀ n, s.generator.Grants t.generator (.frame n) → -t.generator.frame.used ≤ n := by
    rintro n (⟨slot, hslot, hm⟩ | ⟨k, hk, hlow, -⟩)
    · have hn := hs.names slot hslot n hm
      omega
    · cases hk
      exact hlow
  refine ⟨fun slot hslot n hm => hlow n (h.names slot hslot _ hm), fun i hi n hm => ?_⟩
  rw [hc, Array.toList_appendList, List.mem_append] at hi
  rcases hi with hi | hi
  · have hn := hs.stores i hi n hm
    omega
  · exact hlow n (h.stores i hi _ hm)

/-- Code that is fenced is confined to what is granted to it. -/
theorem confined (h : Fenced s t c) (hc : t.generator.code = s.generator.code ++ c) :
    s.generator.Confined c t.generator where
  code := hc
  stores := h.stores
  encloses := h.encloses hc
  spares _ hm := ⟨h.hides hm, fun i hi hmem => hm.not_grants (h.stores i hi _ hmem)⟩

end Fenced

theorem stores_truthCode (type : ValueType) : ∀ i ∈ type.truthCode, i.stores = [] := by
  cases type <;> simp [ValueType.truthCode]

theorem stores_jumpIfFalse (type : ValueType) (l : Label) :
    ∀ i ∈ type.jumpIfFalse l, i.stores = [] :=
  List.forall_mem_append.mpr ⟨stores_truthCode type, by simp⟩

theorem CountsIn.fenced {s t : Stage} {slot : Slot} {leave : Stage → Stage}
    (h : CountsIn s slot t leave) : Fenced s t [] ∧ t.generator.Names slot ∧
      ∀ u, Fenced u (leave u) [] := by
  cases h with
  | there hs _ => exact ⟨.refl s, hs, .refl⟩
  | own name =>
    exact ⟨(Fenced.pushed s).append (.declaring _ name .integer true),
      Gen.names_declaring (s := s.pushed) (List.cons_ne_nil _ _) name .integer true, .popped⟩

/-- Code is fenced to what is granted to it. -/
theorem Makes.fenced {s t : Stage} {c : List Instruction} (h : Makes [] s c t) :
    Fenced s t c := by
  induction h with
  | @plain s g c hp h =>
    have hnames : ∀ slot, g.Names slot → s.generator.Names slot := fun slot hs => by
      rw [Generator.Names, hp.frame, hp.globals] at hs
      exact hs
    refine (Fenced.dropped (t := ⟨g, s.allotted⟩) hnames
      (Int.le_of_eq (by rw [hp.frame]))).extend fun i hi m hm => ?_
    obtain ⟨slot, hs, hm⟩ := (h i hi).stores m hm
    exact .ofNames (hnames slot hs) hm
  | append _ _ ih ih' => exact ih.append ih'
  | fill h => exact .fill _ _ h
  | declare name type mutable => exact .declaring _ name type mutable
  | rebind name hc => cases hc
  | @scope s t c _ ih =>
    have h := ((Fenced.pushed s).append ih).append (.popped t)
    rwa [List.append_nil] at h
  | @divide s operator h =>
    have h₀ : Fenced s s.numbered [] := (Fenced.refl s).congr rfl rfl rfl rfl
    refine h₀.silent ?_
    cases operator <;> cases h <;> simp
  | call _ _ => exact (Fenced.refl _).silent fun i hi => (calling_callCode _ _ i hi).stores
  | @branch s t _ _ c _ _ type _ _ _ ih₁ ih₂ ih₃ =>
    have h₁ : Fenced s t c := ih₁.congr rfl rfl rfl rfl
    have h₂ := (h₁.silent (stores_jumpIfFalse type (.numbered .otherwise s.number))).append ih₂
    have h₃ := h₂.silent (d := [.jump (.numbered .endIf s.number),
      .label (.numbered .otherwise s.number)]) (by simp)
    exact (h₃.append ih₃).silent (by simp)
  | @whileLoop s t u c d type _ _ ih₁ ih₂ =>
    have h₀ := (Fenced.refl s).silent (d := [.label (.numbered .whileStart s.number)]) (by simp)
    have h₁ : Fenced s t c := ih₁.congr rfl rfl rfl rfl
    have h₂ : Fenced t u.looped d := ih₂.congr rfl rfl rfl rfl
    have h₃ := (h₀.append h₁).silent (stores_jumpIfFalse type (.numbered .whileEnd s.number))
    exact (h₃.append h₂).silent (by simp)
  | @doWhile s t u c d type _ _ ih₁ ih₂ =>
    have h₀ := (Fenced.refl s).silent (d := [.label (.numbered .doStart s.number)]) (by simp)
    have h₁ : Fenced s t.looped c := ih₁.congr rfl rfl rfl rfl
    have h₂ := (h₀.append h₁).silent (d := [.label (.numbered .doCondition s.number)]) (by simp)
    exact (h₂.append ih₂).silent (List.forall_mem_append.mpr ⟨stores_truthCode type, by simp⟩)
  | @forLoop s t u v w c d e copy leave slots _ hcounter _ _ _ hcounts _ ih₁ ih₂ ih₃ =>
    obtain ⟨hv, hcopy, hleave⟩ := hcounts.fenced
    have h₁ : Fenced s t c := ih₁.congr rfl rfl rfl rfl
    have h₂ : Fenced t (t.handing .integer .counter) slots.counter.storeCode :=
      .fill t .counter (hcounter ▸ .result)
    have h₃ : Fenced v w.looped e := ih₃.congr rfl rfl rfl rfl
    have h₄ : Fenced v v (lapHead s.number slots copy) :=
      (Fenced.refl v).extend (by
        simpa [lapHead] using Generator.Grants.ofNames hcopy copy.low_mem_parts)
    have hlap := ((hv.append h₄).append h₃).append (hleave w.looped)
    have hrest := ih₂.append hlap
    -- the counter that is stepped was handed out in this code, where it was stored first
    have hstep : s.generator.Grants (leave w.looped).generator slots.counter.low :=
      ((h₁.append h₂).stores (.move (.register .rax) (.memory slots.counter.low))
        (by simp [Slot.storeCode, hcounter, Stage.fresh, Frame.fresh]) _ (by simp)).later hrest.used
    have h := ((h₁.append h₂).append hrest).extend (d := lapTail s.number slots)
      (by simpa [lapTail] using hstep)
    simpa only [List.append_assoc, List.append_nil, List.nil_append] using h
  | @topLevel s t c _ ih =>
    have h₁ : Fenced s (t.exiting s.generator.topLevelExit) c := ih.congr rfl rfl rfl rfl
    exact h₁.silent (by simp)

namespace Gen

/-- If it gives a result, the computation appends code that is confined to what is granted to
it. -/
def Confines {α : Type} (x : Gen α) : Prop :=
  ∀ g a g', g.Rooted → x g = .ok a g' → ∃ c, g.Confined c g'

theorem Confines.of_shapes {α : Type} {x : Gen α} {p : α → Stage → Prop}
    (h : ∀ s, Shapes [] p x s) : Confines x := by
  intro g a g' hg hx
  obtain ⟨c, _, hc, hm, -⟩ := h ⟨g, []⟩ hg a g' hx
  exact ⟨c, hm.fenced.confined hc⟩

/-- Slots without a name are below all that is named or written so far. -/
theorem handsOut_temporary {type : ValueType} {g g' : Generator} {slot : Slot}
    (hg : g.Enclosed) (h : temporary type g = .ok slot g') : g.HandsOut slot g' := by
  cases h
  have hsize := type.size_pos
  have hfresh : ∀ m ∈ (g.frame.fresh type true).parts, ∃ n, m = .frame n ∧
      -(g.frame.used + type.size) ≤ n ∧ n < -g.frame.used := fun m hm => by
    obtain ⟨n, hn, hlow, hhigh⟩ := Slot.part_frame hm rfl
    simp only [Frame.fresh, Frame.offset] at hlow hhigh
    exact ⟨n, hn, hlow, by omega⟩
  refine ⟨rfl, ⟨fun slot hs n hm => ?_, fun i hi n hm => ?_⟩, fun m hm i hi hmem => ?_,
    fun m hm => ⟨?_, fun slot hs hmem => ?_⟩⟩
  · have hn := hg.names slot hs n hm
    simp only [Frame.alloc]
    omega
  · have hn := hg.stores i hi n hm
    simp only [Frame.alloc]
    omega
  · obtain ⟨n, rfl, -, hhigh⟩ := hfresh m hm
    have hn := hg.stores i hi n hmem
    omega
  · obtain ⟨n, hn, hlow, -⟩ := hfresh m hm
    exact ⟨n, hn, hlow⟩
  · obtain ⟨n, rfl, -, hhigh⟩ := hfresh m hm
    have hn := hg.names slot hs n hmem
    omega

end Gen

/-! ## Whole functions -/

/-- Below the frame pointer, memory that code names is part of a slot. -/
theorem Stage.Uses.slot_of_neg {cells : List Slot} {s : Stage} {n : Int}
    (h : s.Uses cells (.frame n)) (hc : Stage.Outside cells) (hn : n < 0) :
    ∃ a ∈ s.allotted, .frame n ∈ a.slot.parts := by
  generalize hm : Memory.frame n = m at h
  cases h with
  | slot ha hp => exact ⟨_, ha, hp⟩
  | @cell slot _ hslot hp =>
    obtain ⟨name, hl⟩ := hc slot hslot
    exact absurd hm.symm (Slot.part_cell hp hl n)
  | argument index =>
    cases hm
    omega
  | constant _ => cases hm
  | pointed _ => cases hm

/-- The frame of a function whose slots are these, and what its code does to them. -/
structure Assembly.Routine.LaidOut (r : Routine) (as : List Allotment) : Prop where
  apart : (as.map (·.slot)).Pairwise Slot.Apart
  within : ∀ a ∈ as, ∃ offset, a.slot.location = .frame offset ∧ 8 ∣ offset ∧
    -r.frameSize ≤ offset ∧ offset + a.slot.type.size ≤ 0
  aligned : 16 ∣ r.frameSize
  least : ∀ size, 0 ≤ size → 16 ∣ size →
    (∀ a ∈ as, ∀ offset, a.slot.location = .frame offset → -size ≤ offset) → r.frameSize ≤ size
  subtracted : ∀ n, .integer .subtract (.immediate n) .rsp ∈ r.prologue ↔
    0 < n ∧ n = r.frameSize
  operands : ∀ i ∈ r.code, ∀ n < 0, .frame n ∈ i.memories → ∃ a ∈ as, ∃ offset,
    a.slot.location = .frame offset ∧ offset ≤ n ∧ n + 8 ≤ offset + a.slot.type.size
  written : ∀ a ∈ as, ∀ n, a.purpose.writers = some n → ∀ m ∈ a.slot.parts, writes m r.code = n

section

variable (r : Routine)

theorem mem_prologue (n : Int) : .integer .subtract (.immediate n) .rsp ∈ r.prologue ↔
    0 < n ∧ n = r.frameSize := by
  unfold Routine.prologue
  split <;> simp <;> omega

/-- Of a function's code, only the body names memory. -/
theorem memories_code {i : Instruction} (hi : i ∈ r.code) (hm : i.memories ≠ []) :
    i ∈ r.body := by
  have hfirst : ∀ i ∈ r.prologue, i.memories = [] := by
    unfold Routine.prologue
    split <;> simp
  have hlast : ∀ i ∈ r.epilogue, i.memories = [] := by simp [Routine.epilogue]
  rcases List.mem_append.mp hi with hi | hi
  · exact (List.mem_append.mp hi).resolve_left fun hi => hm (hfirst i hi)
  · exact absurd (hlast i hi) hm

theorem writes_code (m : Memory) : writes m r.code = writes m r.body := by
  unfold Routine.code Routine.prologue Routine.epilogue
  split <;> simp

end

namespace Gen

variable {cells : List Slot}

/-- Globals mean cells that the program has. -/
def Celled (cells : List Slot) (g : Generator) : Prop :=
  ∀ name slot, g.globals.find? name = some slot → slot ∈ cells

theorem Celled.entry {g : Generator} (h : Celled cells g) (current : CurrentFunction) :
    (Gen.entry g current).Tidy cells where
  handed := .nil
  named scope hs name slot hn := by
    cases List.mem_singleton.mp hs
    cases hn
  globals := h

theorem Celled.behind {r : Routine} {g : Generator} {returns : DeclaredType} {t : Stage}
    (hm : MadeFrom cells r g returns t) (h : Celled cells g) : Celled cells (Gen.behind t) :=
  (hm.made.tidy (h.entry _)).globals

theorem outside_cellsOf {p : Program} {topLevel : List TopLevelStmt} {g : Generator}
    (h : Registered p topLevel g) : Stage.Outside (cellsOf topLevel) := by
  intro slot hs
  have hmem := List.mem_map_of_mem (f := Slot.location) hs
  rw [h.locations] at hmem
  obtain ⟨name, -, hn⟩ := List.mem_map.mp hmem
  exact ⟨name, hn.symm⟩

theorem MadeFrom.laidOut {r : Routine} {g : Generator} {returns : DeclaredType} {t : Stage}
    (hm : MadeFrom cells r g returns t) (hc : Stage.Outside cells) (hg : Celled cells g) :
    r.LaidOut t.allotted := by
  have hentry := hg.entry ⟨r.symbol, returns⟩
  have hrooted : (Gen.entry g ⟨r.symbol, returns⟩).generator.Rooted := List.cons_ne_nil _ _
  have htidy := hm.made.tidy hentry
  have hstacked := htidy.handed.stacked
  obtain ⟨haligned, hcovers, hless⟩ := hm.frame_covers
  have hwithin : ∀ a ∈ t.allotted, ∃ offset, a.slot.location = .frame offset ∧ 8 ∣ offset ∧
      -t.generator.frame.used ≤ offset ∧ offset + a.slot.type.size ≤ 0 := fun a ha =>
    hstacked.within (List.mem_map_of_mem ha)
  refine ⟨hstacked.pairwise, fun a ha => ?_, haligned, fun size h0 h16 hall => ?_,
    mem_prologue r, fun i hi n hn hmem => ?_, fun a ha n hn m hmem => ?_⟩
  · obtain ⟨offset, hl, h8, hlow, hhigh⟩ := hwithin a ha
    exact ⟨offset, hl, h8, by omega, hhigh⟩
  · rcases hstacked.lowest with hzero | ⟨slot, hs, hl⟩
    · omega
    · obtain ⟨a, ha, rfl⟩ := List.mem_map.mp hs
      have hlow := hall a ha _ hl
      omega
  · have hbody := memories_code r hi (List.ne_nil_of_mem hmem)
    have huses := (hm.made.refers hrooted hentry i hbody).memories _ hmem
    obtain ⟨a, ha, hp⟩ := huses.slot_of_neg hc hn
    obtain ⟨offset, hl, -⟩ := hwithin a ha
    obtain ⟨k, hk, hlow, hhigh⟩ := Slot.part_frame hp hl
    cases hk
    exact ⟨a, ha, offset, hl, hlow, hhigh⟩
  · have h := hm.made.written hc htidy.handed ha hn hmem hrooted hentry (List.Subset.refl _)
    rw [writes_code]
    simpa [due, ha, Gen.entry] using h

/-- Wherever the making of a function has come to, what is named and written was handed out. -/
theorem Celled.enclosed {g : Generator} {current : CurrentFunction} {t : Stage}
    {c : List Instruction} (hg : Celled cells g) (hc : Stage.Outside cells)
    (hm : Makes cells (Gen.entry g current) c t) (hcode : t.generator.code.toList = c) :
    t.generator.Enclosed := by
  have hentry := hg.entry current
  have htidy := hm.tidy hentry
  have hused : ∀ n, t.Uses cells (.frame n) → -t.generator.frame.used ≤ n := by
    intro n hn
    have hnonneg := htidy.handed.stacked.nonneg
    by_cases hneg : n < 0
    · obtain ⟨a, ha, hp⟩ := hn.slot_of_neg hc hneg
      obtain ⟨offset, hl, -, hlow, -⟩ := htidy.handed.stacked.within (List.mem_map_of_mem ha)
      obtain ⟨k, hk, hle, -⟩ := Slot.part_frame hp hl
      cases hk
      omega
    · omega
  refine ⟨fun slot hs n hmem => hused n (htidy.uses_of_names hs hmem), fun i hi n hmem => ?_⟩
  have hrefers := hm.refers (List.cons_ne_nil _ _) hentry i (hcode ▸ hi)
  exact hused n (hrefers.memories _ (Instruction.memories_of_stores hmem))

end Gen

/-- The frame of every function of a compiled program: the slots that were handed out in the
making of its code are apart, aligned and within the frame, the frame is no larger than they need,
code names no other memory of it, and slots without names are written where they were handed out
only. So wherever the making has come to, a slot that is handed out without a name is one that no
code in front wrote to, and all that is generated behind leaves it alone. -/
theorem Program.frames_of_compile {p : Program} {c : Compiled} (h : p.compile = .ok c)
    {r : Routine} (hr : r ∈ c.listing.routines) :
    (∃ topLevel f g t, f ∈ lastOfName p.functions ∧
      Gen.function topLevel f g = .ok r (Gen.behind t) ∧
      Gen.MadeFrom (Gen.cellsOf topLevel) r g f.returns t ∧
      Frame.Hands .new t.allotted (Gen.behind t).frame ∧ r.LaidOut t.allotted ∧
      ∀ u code, Makes (Gen.cellsOf topLevel) (Gen.entry g ⟨r.symbol, f.returns⟩) code u →
        u.generator.code.toList = code → u.generator.Enclosed) ∧
    (∀ type g slot g', g.Enclosed → Gen.temporary type g = .ok slot g' → g.HandsOut slot g') ∧
    (∀ e, Gen.Confines (Gen.expression e)) ∧ (∀ s, Gen.Confines (Gen.statement s)) ∧
    (∀ type, Gen.Confines (Gen.spill type)) ∧
    ∀ source target position, Gen.Confines (Gen.emitCoercion source target position) := by
  obtain ⟨g', hg⟩ := generated_of_compile h
  obtain ⟨topLevel, g, hregistered, hroutines, -⟩ := Gen.routines_program hg
  obtain ⟨f, hf, g₁, t, hcelled, hrun, hmade, -⟩ := hroutines.made
    (p := Gen.Celled (Gen.cellsOf topLevel)) (fun hm hp => hp.behind hm) hregistered.globals hr
  have houtside := Gen.outside_cellsOf hregistered
  refine ⟨⟨topLevel, f, g₁, t, hf, hrun, hmade, ?_, ?_, ?_⟩, ?_, ?_, ?_, ?_, ?_⟩
  · exact (hmade.made.tidy (hcelled.entry _)).handed
  · exact hmade.laidOut houtside hcelled
  · exact fun u code hmakes hcode => hcelled.enclosed houtside hmakes hcode
  · exact fun type g slot g' hg htemporary => Gen.handsOut_temporary hg htemporary
  · exact fun e => .of_shapes (Gen.shapes_expression e)
  · exact fun b => .of_shapes (Gen.shapes_statement b)
  · exact fun type => .of_shapes fun _ => Gen.shapes_spill type
  · exact fun source target position =>
      .of_shapes fun _ => Gen.shapes_emitCoercion source target position

/-- A range takes two words of the frame. -/
theorem Program.frames_of_compile_range :
    let p : Program := ⟨[.function ⟨"main", [], .unit, ⟨[
      .declare "r" true none (some (.range (.integer 1 default) (.integer 3 default) false false
        none default)) default,
      .print (some (.name "r" default)) false default], default⟩, default⟩], default⟩
    ∃ c r, p.compile = .ok c ∧ r ∈ c.listing.routines ∧ r.frameSize = 32 ∧
      ∃ as, r.LaidOut as := by
  intro p
  have hrun : p.compile.toOption.any
      (fun c => c.listing.routines[0]?.any (·.frameSize = 32)) = true := by
    decide +kernel
  obtain ⟨c, hc, hk⟩ := exists_of_any hrun
  obtain ⟨r, hr, hk⟩ := (Option.any_eq_true ..).mp hk
  have hsize := of_decide_eq_true hk
  have hr := List.mem_of_getElem? hr
  obtain ⟨⟨_, _, _, t, -, -, -, -, h, -⟩, -⟩ := Program.frames_of_compile hc hr
  exact ⟨c, r, hc, hr, hsize, t.allotted, h⟩

end ScriptLang
