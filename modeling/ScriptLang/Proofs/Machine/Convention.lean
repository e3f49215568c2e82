import ScriptLang.Proofs.Codegen.Site
import ScriptLang.Proofs.Machine.Passing

/-!
# The calling convention

Caller and callee agree on where arguments travel. The code of every call evaluates the
arguments into slots of the caller's frame, and what was there is in the slots of the
parameters once the callee has received it.
-/

namespace ScriptLang

open Assembly Gen Generator

theorem DeclaredType.size_valueType (type : DeclaredType) : type.valueType.size = 8 := by
  cases type <;> rfl

theorem Slot.Between.mono {low high low' high' : Int} {s : Slot} (h : s.Between low high)
    (hl : low' ≤ low) (hh : high ≤ high') : s.Between low' high' := by
  obtain ⟨depth, hs, hlow, hhigh⟩ := h
  exact ⟨depth, hs, by omega, by omega⟩

namespace Gen

variable {g g' : Generator}

theorem spill_slot {type : ValueType} {slot : Slot} (h : spill type g = .ok slot g') :
    slot = g.frame.fresh type true ∧ g'.frame.used = g.frame.used + type.size := by
  cases h
  exact ⟨rfl, rfl⟩

/-- Arguments are kept in slots of the parameters' types, taken one after the other. -/
theorem slots_stored {es : List Expr} {ps : List Parameter} {slots : List Slot}
    (hg : g.Rooted) (hlength : es.length = ps.length) (h : stored es ps g = .ok slots g') :
    slots.map (·.type) = ps.map (·.type.valueType) ∧
      ∀ s ∈ slots, s.Between g.frame.used g'.frame.used := by
  induction es generalizing ps g slots with
  | nil =>
    obtain rfl := List.length_eq_zero_iff.mp hlength.symm
    cases h
    exact ⟨rfl, List.forall_mem_nil _⟩
  | cons e es ih =>
    obtain _ | ⟨p, ps⟩ := ps
    · cases hlength
    obtain ⟨t, g₁, h₁, h⟩ := bind_ok.mp h
    obtain ⟨_, g₂, h₂, h⟩ := bind_ok.mp h
    obtain ⟨slot, g₃, h₃, h⟩ := bind_ok.mp h
    obtain ⟨slots, g₄, h₄, h⟩ := bind_ok.mp h
    cases h
    obtain ⟨c₁, hc₁⟩ := continuing_expression e g t g₁ hg h₁
    obtain ⟨c₂, hc₂⟩ := continuing_emitCoercion _ _ _ g₁ _ g₂ (hc₁.rooted hg) h₂
    have hc := hc₁.trans hc₂
    have hr := ((continuing_spill _).run (hc.rooted hg) h₃).1
    obtain ⟨htypes, hslots⟩ := ih hr (Nat.succ.inj hlength) h₄
    obtain ⟨c₄, hc₄⟩ := continuing_stored _ _ g₃ slots g' hr h₄
    obtain ⟨rfl, hspill⟩ := spill_slot h₃
    rw [p.type.size_valueType] at hspill
    have hused := hc.used
    have hused' := hc₄.used
    refine ⟨congrArg (p.type.valueType :: ·) htypes, List.forall_mem_cons.mpr
      ⟨⟨g₂.frame.used + 8, ?_, by omega, by omega⟩,
        fun s hs => (hslots s hs).mono (by omega) (Int.le_refl _)⟩⟩
    rw [Frame.fresh, Frame.offset, p.type.size_valueType]
    rfl

theorem declare_slot {name : String} {type : ValueType} {mutable : Bool} {slot : Slot}
    (h : declare name type mutable g = .ok slot g') :
    slot = g.frame.fresh type mutable ∧ g'.frame.used = g.frame.used + type.size := by
  cases h
  exact ⟨rfl, Frame.used_bind _ _ _⟩

/-- Parameters are received in slots that are taken one after the other. -/
theorem code_receiveParameters {ps : List Parameter} {passages : List Passage}
    (h : receiveParameters ps passages g = .ok () g') :
    g'.code = g.code ++
      (List.zipWith Passage.receive passages (parameterSlots ps g.frame.used)).flatten := by
  induction ps generalizing passages g with
  | nil =>
    cases h
    rw [parameterSlots, List.zipWith_nil_right]
    exact Array.appendList_nil.symm
  | cons p ps ih =>
    obtain _ | ⟨passage, passages⟩ := passages
    · cases h
      exact Array.appendList_nil.symm
    obtain ⟨slot, g₁, h₁, h⟩ := bind_ok.mp h
    obtain ⟨_, _, ⟨⟩, h⟩ := bind_ok.mp h
    obtain ⟨hslot, hused⟩ := declare_slot h₁
    have hcode : g₁.code = g.code ++ ([] : List Instruction) := (continues_declare h₁).code
    rw [p.type.size_valueType] at hused
    have hslot : slot = ⟨.frame (-(g.frame.used + 8)), p.type.valueType, true⟩ := by
      rw [hslot, Frame.fresh, Frame.offset, p.type.size_valueType]
      rfl
    have hrest := ih h
    rw [hrest]
    show g₁.code ++ passage.receive slot ++ (List.zipWith Passage.receive passages
      (parameterSlots ps g₁.frame.used)).flatten = _
    rw [hused, hcode, hslot]
    exact Array.ext' (by simp [parameterSlots])

/-- What a call that can be made generates: the arguments, and the call itself. -/
theorem run_call {f : Function} {symbol : String} {args : List Expr} {span : Span}
    {type : ValueType} (hf : g.signatures.find? f.name = some ⟨symbol, f⟩)
    (hlength : args.length = f.parameters.length)
    (h : expression (.call f.name args span) g = .ok type g') :
    ∃ slots k, stored args f.parameters g = .ok slots k ∧
      ∃ after, g'.code = k.code ++ (callCode symbol slots ++ after) := by
  rw [expression, get_bind, hf] at h
  dsimp only at h
  rw [if_pos hlength.symm] at h
  obtain ⟨slots, k, hk, h⟩ := bind_ok.mp h
  obtain ⟨_, _, ⟨⟩, h⟩ := bind_ok.mp h
  refine ⟨slots, k, hk, ?_⟩
  split at h
  · cases h
    exact ⟨[.clear .rax], Array.ext' (by simp)⟩
  · cases h
    exact ⟨[], Array.ext' (by simp)⟩

/-- The body of a function begins with what receives its parameters. -/
theorem Generates.receives {p : Program} {ts : List TopLevelStmt} {f : Function} {r : Routine}
    (h : Generates p ts f g r) : ∃ rest, r.body = (List.zipWith Passage.receive
      (Passage.ofTypes (f.parameters.map (·.type.valueType)))
      (parameterSlots f.parameters 0)).flatten ++ rest := by
  obtain ⟨g', hrun⟩ := h.run
  obtain ⟨k, k', u, post, hk, hinside, hstart, hin, -, hu, hbody, -⟩ :=
    run_function h.outside hrun
  obtain ⟨_, _, ⟨⟩, hk⟩ := bind_ok.mp hk
  have hcode := code_receiveParameters hk
  obtain ⟨c, hc⟩ : ∃ c, k.Appends c k' := by
    split at hstart
    · exact (run_topLevelStatements hinside hstart).2.2
    · exact ⟨[], .of_eq (by rw [hstart]) (by rw [hstart])⟩
  obtain ⟨-, d, hd⟩ := (continuing_statements f.body.body).run (Reaches.pushed k').rooted hu
  refine ⟨c ++ d ++ post, ?_⟩
  rw [hbody, ((hc.trans (Reaches.pushed k').toAppends).trans hd).toList, hcode]
  simp [Frame.new]

end Gen

/-- The sequence of a call names the slot of every argument. -/
theorem mem_callLead {slots : List Slot} {s : Slot} (hs : s ∈ slots) :
    ∃ i ∈ callLead slots, s.low ∈ i.memories := by
  obtain ⟨k, hk, hs⟩ := List.mem_iff_getElem.mp hs
  have hlength : k < (Passage.ofTypes (slots.map (·.type))).length := by
    rw [Passage.ofTypes, Passage.length_assign, List.length_map]
    exact hk
  obtain ⟨p, hp⟩ : ∃ p, (Passage.ofTypes (slots.map (·.type)))[k]? = some p :=
    ⟨_, List.getElem?_eq_getElem hlength⟩
  have hs := List.getElem?_eq_some_iff.mpr ⟨hk, hs⟩
  have hmem : ∀ f : Passage → Slot → List Instruction, ∀ i ∈ f p s,
      i ∈ (List.zipWith f (Passage.ofTypes (slots.map (·.type))) slots).flatten := by
    intro f i hi
    refine List.mem_flatten.mpr ⟨f p s, List.mem_iff_getElem?.mpr ⟨k, ?_⟩, hi⟩
    rw [List.getElem?_zipWith, hp, hs]
  have hlead : ∀ i, i ∈ (List.zipWith Passage.pushed (Passage.ofTypes (slots.map (·.type)))
        slots).reverse.flatten ∨
      i ∈ (List.zipWith Passage.send (Passage.ofTypes (slots.map (·.type))) slots).flatten →
      i ∈ callLead slots := by
    intro i hi
    unfold callLead
    simp only [List.mem_append]
    exact .inl (hi.imp_left .inr)
  cases p with
  | register r =>
    exact ⟨.move (.memory s.low) (.register r),
      hlead _ (.inr (hmem Passage.send _ (List.mem_singleton_self _))), by simp⟩
  | float x =>
    exact ⟨.loadFloat s.low x,
      hlead _ (.inr (hmem Passage.send _ (List.mem_singleton_self _))), by simp⟩
  | stack i =>
    refine ⟨.push (.memory s.low), hlead _ (.inl ?_), by simp⟩
    have h := hmem Passage.pushed _ (List.mem_singleton_self _)
    simpa using h

/-- Slots that the code of a function names lie in its frame. -/
theorem Assembly.Routine.LaidOut.between {r : Routine} {as : List Allotment} (h : r.LaidOut as)
    {s : Slot} {low high : Int} (hs : s.Between low high) (hlow : 0 ≤ low) {i : Instruction}
    (hi : i ∈ r.code) (hm : s.low ∈ i.memories) : s.Between 0 r.frameSize := by
  obtain ⟨depth, hl, hdepth, -⟩ := hs
  have hpart : s.low = .frame (-depth) := by
    rw [Slot.low, Slot.part, hl]
    exact congrArg Memory.frame (Int.add_zero _)
  rw [hpart] at hm
  obtain ⟨a, ha, offset, ho, hle, -⟩ := h.operands i hi (-depth) (by omega) hm
  obtain ⟨offset', ho', -, hframe, -⟩ := h.within a ha
  cases ho.symm.trans ho'
  exact ⟨depth, hl, by omega, by omega⟩

/-- Behind balanced code of a function, the stack ends where the frame ends. -/
theorem Steady.stack_behind {r : Routine} (h : Steady r) {front rest : List Instruction}
    (hbody : r.body = front ++ rest) (hfront : Balanced front) {start q : Pointers}
    (hv : Visits r.withHandlers start (r.prologue.length + front.length) q) :
    q.stack = q.frame - r.frameSize := by
  have hlength : front.length ≤ r.body.length := by
    rw [hbody, List.length_append]
    omega
  have hs := h.settled hv
  have hstack := hs.stack (by rw [Routine.finish]; omega)
  have hframe := hs.frame (Nat.le_add_right_of_le (three_le_prologue r))
    (by rw [Routine.finish]; omega)
  rw [h.depth_take hlength, hbody, List.take_left, hfront.depth_eq_zero] at hstack
  omega

/-- First slots are pushed, then registers are loaded from slots, and the number of vector
registers last. -/
def PushesThenLoads (slots : List Slot) (code : List Instruction) : Prop :=
  ∃ pushes loads count, code = pushes ++ loads ++ [.moveLong count .rax] ∧
    (∀ i ∈ pushes, i = .integer .subtract (.immediate 8) .rsp ∨
      ∃ s ∈ slots, i = .push (.memory s.low)) ∧
    ∀ i ∈ loads, ∃ s ∈ slots, (∃ r, i = .move (.memory s.low) (.register r)) ∨
      ∃ x, i = .loadFloat s.low x

theorem pushesThenLoads_callLead (slots : List Slot) :
    PushesThenLoads slots (callLead slots) := by
  refine ⟨_, _, _, rfl, fun i hi => ?_, fun i hi => ?_⟩
  · rcases List.mem_append.mp hi with hi | hi
    · split at hi
      · exact .inl (List.mem_singleton.mp hi)
      · cases hi
    · obtain ⟨l, hl, hi⟩ := List.mem_flatten.mp hi
      obtain ⟨p, -, s, hs, rfl⟩ := mem_zipWith (List.mem_reverse.mp hl)
      exact .inr ⟨s, hs, Passage.mem_pushed hi⟩
  · obtain ⟨l, hl, hi⟩ := List.mem_flatten.mp hi
    obtain ⟨p, -, s, hs, rfl⟩ := mem_zipWith hl
    cases p with
    | register r => exact ⟨s, hs, .inl ⟨r, List.mem_singleton.mp hi⟩⟩
    | float x => exact ⟨s, hs, .inr ⟨x, List.mem_singleton.mp hi⟩⟩
    | stack i => cases hi

/-- How arguments in slots of the caller's frame get to the callee, with the code of the caller
in front of the call. -/
structure Conveys (f : Function) (caller callee : Routine) (front : List Instruction)
    (slots : List Slot) : Prop where
  types : slots.map (·.type) = f.parameters.map (·.type.valueType)
  framed : ∀ s ∈ slots, s.Between 0 caller.frameSize
  places : ∀ k : Nat, (Passage.ofTypes (slots.map (·.type)))[k]? = (slots[k]?.map (·.type)).map
    (Passage.place [.rdi, .rsi, .rdx, .rcx, .r8, .r9]
      [.xmm0, .xmm1, .xmm2, .xmm3, .xmm4, .xmm5, .xmm6, .xmm7] 0
      (((slots.map (·.type)).take k).countP (· = .float))
      (((slots.map (·.type)).take k).countP (· ≠ .float)))
  apart : (Passage.ofTypes (slots.map (·.type))).Nodup
  received : ∃ rest, callee.body = (List.zipWith Passage.receive
    (Passage.ofTypes (f.parameters.map (·.type.valueType)))
    (parameterSlots f.parameters 0)).flatten ++ rest
  ordered : PushesThenLoads slots (callLead slots)
  level : ∀ start q, Visits caller.withHandlers start (caller.prologue.length + front.length) q →
    q.stack = q.frame - caller.frameSize
  delivered : ∀ (L : Layout) (back : BitVec 64) (m : Processor),
    m.register .rsp = below (m.register .rbp) caller.frameSize → callee.frameSize < 2 ^ 31 →
    caller.frameSize + callRoom slots + 16 + 8 * f.parameters.length ≤ 2 ^ 64 →
    ∃ called entered received, Processor.Delivers L back slots f.parameters
      (.symbol callee.symbol) callee m called entered received

/-- What a function keeps in slots for a call of another one gets there. -/
theorem Gen.Generates.conveys {p : Program} {ts : List TopLevelStmt} {f f' : Function}
    {g g' : Generator} {r r' : Routine} (hg : Generates p ts f g r) (hg' : Generates p ts f' g' r')
    {front rest : List Instruction} {slots : List Slot}
    (hbody : r.body = front ++ (callLead slots ++ rest)) (hfront : Balanced front)
    (htypes : slots.map (·.type) = f'.parameters.map (·.type.valueType)) {low high : Int}
    (hlow : 0 ≤ low) (hslots : ∀ s ∈ slots, s.Between low high) : Conveys f' r r' front slots := by
  obtain ⟨as, hlaidOut⟩ := hg.laidOut
  have hframed : ∀ s ∈ slots, s.Between 0 r.frameSize := by
    intro s hs
    obtain ⟨i, hi, hm⟩ := mem_callLead hs
    refine hlaidOut.between (hslots s hs) hlow ?_ hm
    rw [Routine.code, hbody]
    simp [hi]
  exact {
    types := htypes
    framed := hframed
    places := fun k => by rw [Passage.ofTypes, Passage.getElem?_assign, List.getElem?_map]
    apart := Passage.nodup_ofTypes _
    received := hg'.receives
    ordered := pushesThenLoads_callLead slots
    level := fun start q hv => hg.steady.stack_behind hbody hfront hv
    delivered := fun L back m hstack hsmall hfits => Processor.delivers_call L back _ r' htypes
      hframed hstack hg.steady.nonnegative hsmall hfits }

/-- Every call of a compiled program that passes as many arguments as there are parameters
evaluates them into slots of the frame, and then calls. There each is in the place that its
type and those before it assign, in which the callee finds it. -/
theorem Program.calls_of_compile {p : Program} {c : Compiled} (h : p.compile = .ok c)
    {f f' : Function} (hf : f ∈ lastOfName p.functions) (hf' : f' ∈ lastOfName p.functions) :
    ∃ ts, ∃ r ∈ c.listing.routines, ∃ r' ∈ c.listing.routines, ∃ g, Generates p ts f g r ∧
      r'.symbol = symbolOf f'.name ∧
      ∀ (site : Site .expression) (args : List Expr) (span : Span),
        site.Holds (Expr.call f'.name args span) p f → args.length = f'.parameters.length →
        ∃ h slots k evaluation after, site.lead ts f g = .ok () h ∧
          stored args f'.parameters h = .ok slots k ∧
          r.body = h.code.toList ++ (evaluation ++ (callLead slots ++
            .call (.symbol r'.symbol) :: callTail slots) ++ after) ∧
          k.code = h.code ++ evaluation ∧ Conveys f' r r' (h.code.toList ++ evaluation) slots := by
  obtain ⟨-, ts, hgenerates⟩ := Program.generates_of_compile h
  obtain ⟨r, hr, g, hg, -⟩ := hgenerates f hf
  obtain ⟨r', hr', g', hg', -⟩ := hgenerates f' hf'
  refine ⟨ts, r, hr, r', hr', g, hg, hg'.symbol, fun site args span hsite hlength => ?_⟩
  obtain ⟨_, hrun⟩ := hg.run
  have hnameless : Part.Nameless .expression (Expr.call f'.name args span) := rfl
  obtain ⟨h, h', post, harrives⟩ :=
    site.arrives hnameless hg.topLevel hsite hg.outside hrun
  obtain ⟨type, hcall⟩ := harrives.runs
  have hknown := hg.knowing.congr harrives.signatures f' hf'
  obtain ⟨slots, k, hk, after, hafter⟩ := run_call hknown hlength hcall
  obtain ⟨evaluation, hevaluation⟩ :=
    continuing_stored _ _ h slots k harrives.rooted hk
  obtain ⟨htypes, hslots⟩ := slots_stored harrives.rooted hlength hk
  have hbody : r.body = h.code.toList ++ (evaluation ++ (callLead slots ++
      .call (.symbol r'.symbol) :: callTail slots) ++ (after ++ post)) := by
    rw [harrives.body, hafter, hevaluation.code, callCode_eq, hg'.symbol]
    simp
  have hfront : r.body = (h.code.toList ++ evaluation) ++ (callLead slots ++
      (.call (.symbol r'.symbol) :: callTail slots ++ (after ++ post))) := by
    rw [hbody]
    simp
  exact ⟨h, slots, k, evaluation, after ++ post, harrives.lead, hk, hbody, hevaluation.code,
    hg.conveys hg' hfront (harrives.balanced.append hevaluation.balanced) htypes harrives.used
      hslots⟩

/-- Seven integers and a string go before the last of nine floats, which is third on the stack. -/
theorem Program.calls_of_compile_seventeen :
    let zero : Expr := .integer 0 default
    let params : List Parameter := List.replicate 7 ⟨"n", .int⟩ ++
      ⟨"s", .string⟩ :: List.replicate 9 ⟨"x", .float⟩
    let args := List.replicate 7 zero ++ .string "" default :: List.replicate 9 zero
    let f : Function := ⟨"f", params, .unit, ⟨[], default⟩, default⟩
    let main : Function := ⟨"main", [], .unit, ⟨[.expression (.call "f" args default)], default⟩,
      default⟩
    let p : Program := ⟨[.function f, .function main], default⟩
    ∃ c r r' front slots after, p.compile = .ok c ∧ r ∈ c.listing.routines ∧
      r' ∈ c.listing.routines ∧ r'.symbol = "kt_f" ∧
      r.body = front ++ (callLead slots ++ .call (.symbol "kt_f") :: callTail slots) ++ after ∧
      Conveys f r r' front slots ∧
      (Passage.ofTypes (slots.map (·.type))).getLast? = some (.stack 2) := by
  intro zero params args f main p
  have hrun : p.compile.toOption.any (fun _ => true) = true := by decide +kernel
  obtain ⟨c, hc, -⟩ := exists_of_any hrun
  have hf : f ∈ lastOfName p.functions := List.mem_cons_self
  have hmain : main ∈ lastOfName p.functions := List.mem_cons_of_mem _ List.mem_cons_self
  obtain ⟨ts, r, hr, r', hr', g, -, hsymbol, hcalls⟩ := Program.calls_of_compile hc hmain hf
  obtain ⟨h, slots, k, evaluation, after, -, -, hbody, -, hconveys⟩ :=
    hcalls (.body (.within (.head false []) (.within .asStatement .here))) args default rfl rfl
  have hsymbol : r'.symbol = "kt_f" := hsymbol
  refine ⟨c, r, r', h.code.toList ++ evaluation, slots, after, hc, hr, hr', hsymbol, ?_,
    hconveys, ?_⟩
  · rw [hbody, hsymbol]
    simp
  · rw [hconveys.types]
    rfl

end ScriptLang
