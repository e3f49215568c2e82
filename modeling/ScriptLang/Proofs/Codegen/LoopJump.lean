import ScriptLang.Proofs.Codegen.Parallel
import ScriptLang.Proofs.Codegen.Site

/-!
# Where `break` and `continue` lead

In the body of a loop, `break` and `continue` jump to the labels of the innermost loop around.
The condition and the range of a loop are not in its body. Out of all loops, they end the
statement of the top level, or the function with zero for its result.
-/

namespace ScriptLang

open Assembly Gen Generator

/-- A statement that jumps to a label of a loop. -/
inductive LoopJump where
  | «break» (span : Span)
  | «continue» (span : Span)

namespace LoopJump

def stmt : LoopJump → Stmt
  | «break» span => .break span
  | «continue» span => .continue span

def target : LoopJump → LoopLabels → Label
  | «break» _ => LoopLabels.onBreak
  | «continue» _ => LoopLabels.onContinue

end LoopJump

/-- The code that makes the result the zero of a type: the number, `false`, the empty text of the
pool, or the range of zeros. -/
inductive ValueType.Zeroes (strings : List String) : ValueType → List Instruction → Prop
  | integer : Zeroes strings .integer [.clear .rax]
  | boolean : Zeroes strings .boolean [.clear .rax]
  | float : Zeroes strings .float [.clearFloat .xmm0]
  | range : Zeroes strings .range [.clear .rax, .clear .rdx]
  | string {n : Nat} : strings[n]? = some "" → Zeroes strings .string [.address (.string n) .rax]

/-- Texts keep their labels when others are added behind. -/
theorem ValueType.Zeroes.mono {strings strings' : List String} {type : ValueType}
    {zero : List Instruction} (h : type.Zeroes strings zero) (hs : strings <+: strings') :
    type.Zeroes strings' zero := by
  cases h with
  | integer => exact .integer
  | boolean => exact .boolean
  | float => exact .float
  | range => exact .range
  | string hn =>
    obtain ⟨_, rfl⟩ := hs
    exact .string (by rw [List.getElem?_append_left (List.getElem?_eq_some_iff.mp hn).1, hn])

namespace Gen

variable {target : LoopLabels → Label} {g g' : Generator}

theorem zeroes_emitZero {type : ValueType} (h : emitZero type g = .ok () g') :
    ∃ zero, type.Zeroes g'.strings.toList zero ∧ g'.code = g.code ++ zero := by
  cases type with
  | string =>
    obtain ⟨_, _, hstring, h⟩ := bind_ok.mp h
    rw [internString_eq] at hstring
    cases hstring
    cases h
    exact ⟨_, .string (by simpa using getElem?_interned_self g.strings ""), rfl⟩
  | integer | boolean | float | range =>
    cases h
    exact ⟨_, by constructor, rfl⟩

theorem code_loopJump_of_loop {labels : LoopLabels} {rest : List LoopLabels}
    (hg : g.loops = labels :: rest) (h : emitLoopJump target g = .ok () g') :
    g'.code = g.code ++ [Instruction.jump (target labels)] := by
  rw [emitLoopJump, get_bind, hg] at h
  cases h
  rfl

theorem code_loopJump_of_exit {exit : Label} (hg : g.loops = [])
    (he : g.topLevelExit = some exit) (h : emitLoopJump target g = .ok () g') :
    g'.code = g.code ++ [Instruction.jump exit] := by
  rw [emitLoopJump, get_bind, hg] at h
  dsimp only at h
  rw [he] at h
  cases h
  rfl

theorem code_loopJump_of_none (hg : g.loops = []) (he : g.topLevelExit = none)
    (h : emitLoopJump target g = .ok () g') :
    ∃ zero, Coded (emitZero g.returns.valueType) () zero ∧
      g.returns.valueType.Zeroes g'.strings.toList zero ∧
      g'.code = g.code ++ (zero ++ [.jump g.epilogue]) := by
  rw [emitLoopJump, get_bind, hg] at h
  dsimp only at h
  rw [he] at h
  obtain ⟨_, k, hk, h⟩ := bind_ok.mp h
  cases h
  obtain ⟨zero, hzero, hcode⟩ := zeroes_emitZero hk
  exact ⟨zero, ⟨g, k, hk, hcode⟩, hzero, Array.ext' (by simp [hcode])⟩

end Gen

/-- Where the jump at a site leads, behind some code of the routine of a function: to a label of
the innermost loop around, behind the statement of the top level, or to the end, with the zero of
the type that the function returns. -/
inductive LoopJump.Leads (jump : LoopJump) (strings : List String) (f : Function) (r : Routine) :
    Site .statement → List Instruction → Prop
  | loop {outer : Site .statement} {loop : Loop} {inner : Spot .statement .statement}
      {number : Nat} {before head inside behind tail after : List Instruction} :
    inner.Open → loop.Spells number head tail →
    Coded (statement (loop.around (inner.fill jump.stmt))) () (head ++
      (inside ++ .jump (jump.target (loop.labels number)) :: behind) ++ tail) →
    r.body = before ++ (head ++
      (inside ++ .jump (jump.target (loop.labels number)) :: behind) ++ tail) ++ after →
    Leads jump strings f r (outer.append (.within (.loopBody loop) inner)) (before ++ (head ++ inside))
  | topLevel {stmts stmts' : List Stmt} {spot : Spot .statement .statement} {number : Nat}
      {cell : Option Slot} {before inside behind after : List Instruction} :
    spot.Open →
    Coded (housed cell (spot.fill jump.stmt)) ()
      (inside ++ .jump (.numbered .topEnd number) :: behind) →
    r.body = before ++ (inside ++ .jump (.numbered .topEnd number) :: behind) ++
      .label (.numbered .topEnd number) :: after →
    Leads jump strings f r (.topLevel stmts stmts' spot) (before ++ inside)
  | body {spot : Spot .statement (.body false)} {front zero after : List Instruction} :
    spot.Open → Coded (emitZero f.returns.valueType) () zero →
    f.returns.valueType.Zeroes strings zero →
    r.body = front ++ (zero ++ .jump (.epilogue r.symbol) :: after) →
    Leads jump strings f r (.body spot) front

namespace LoopJump

variable {jump : LoopJump} {p : Program} {ts : List TopLevelStmt} {f : Function} {g g' : Generator}
  {r : Routine} {strings : List String}

theorem run_stmt (h : Runs .statement jump.stmt g g') :
    emitLoopJump jump.target g = .ok () g' := by
  obtain ⟨cell, h⟩ := h
  cases jump <;> cases cell <;> exact h

/-- In a loop, the jump leads to a label around the code of the body. -/
theorem leads_loop (hr : Generates p ts f g r) {outer : Site .statement} {loop : Loop}
    {inner : Spot .statement .statement} (hinner : inner.Open)
    (hsite : (outer.append (.within (.loopBody loop) inner)).Holds jump.stmt p f) :
    ∃ h, (outer.append (.within (.loopBody loop) inner)).lead ts f g = .ok () h ∧
      jump.Leads strings f r (outer.append (.within (.loopBody loop) inner)) h.code.toList := by
  obtain ⟨_, hrun⟩ := hr.run
  have hholds := (Site.holds_append _ _ outer).mp hsite
  obtain ⟨k, k', post, harrives⟩ :=
    outer.arrives (i := .statement) trivial hr.topLevel hholds hr.outside hrun
  obtain ⟨cell, hloop⟩ := harrives.runs
  have hloop : statement (loop.around (inner.fill jump.stmt)) k = .ok () k' := by
    cases loop <;> cases cell <;> exact hloop
  obtain ⟨h, h', head, inside, behind, tail, hlead, hjump, hfront, hback, hspells, hloops⟩ :=
    loop.arrives (i := .statement) trivial hinner harrives.rooted hloop
  have hcode := code_loopJump_of_loop hloops (run_stmt hjump)
  refine ⟨h, ?_, ?_⟩
  · rw [Site.lead_append]
    exact (bind_of_ok _ harrives.lead).trans hlead
  · have hcoded : k'.code = k.code ++ (head ++
        (inside ++ .jump (jump.target (loop.labels (k.labels + 1))) :: behind) ++ tail) := by
      rw [hback.code, hcode, hfront]
      exact Array.ext' (by simp)
    have hbody : r.body = k.code.toList ++ (head ++
        (inside ++ .jump (jump.target (loop.labels (k.labels + 1))) :: behind) ++ tail) ++
        post := by
      rw [harrives.body, hcoded, Array.toList_appendList]
    rw [hfront, Array.toList_appendList]
    exact .loop hinner hspells ⟨k, k', hloop, hcoded⟩ hbody

/-- Out of all loops, the jump leads behind the statement of the top level, or to the end. -/
theorem leads_open (hr : Generates p ts f g r) (hrun : function ts f g = .ok r g')
    (hstrings : g'.strings.toList <+: strings) {site : Site .statement} (hopen : site.Open)
    (hsite : site.Holds jump.stmt p f) :
    ∃ h, site.lead ts f g = .ok () h ∧ jump.Leads strings f r site h.code.toList := by
  obtain ⟨h, h', post, harrives⟩ :=
    site.arrives (i := .statement) trivial hr.topLevel hsite hr.outside hrun
  refine ⟨h, harrives.lead, ?_⟩
  have hjump := run_stmt harrives.runs
  have hloops := harrives.loops hopen
  cases site with
  | body spot =>
    obtain ⟨zero, hzero, hzeroes, hcode⟩ :=
      code_loopJump_of_none hloops harrives.exits hjump
    rw [Generator.returns, harrives.current] at hzero hzeroes
    rw [Generator.epilogue, harrives.current] at hcode
    have hbody : r.body =
        h.code.toList ++ (zero ++ .jump (.epilogue r.symbol) :: post) := by
      rw [harrives.body, hcode, hr.symbol]
      simp
    exact .body hopen hzero (hzeroes.mono (harrives.strings.trans hstrings)) hbody
  | topLevel before after spot =>
    obtain ⟨number, u, u', cell, hrun, hexit, inside, behind, rest, hinside, hbehind, rfl⟩ :=
      harrives.exits
    have hcode := code_loopJump_of_exit hloops hexit hjump
    have hcoded : u'.code =
        u.code ++ (inside ++ .jump (.numbered .topEnd number) :: behind) := by
      rw [hbehind, hcode, hinside]
      exact Array.ext' (by simp)
    have hbody : r.body = u.code.toList ++
        (inside ++ .jump (.numbered .topEnd number) :: behind) ++
        .label (.numbered .topEnd number) :: rest := by
      rw [harrives.body, hcode, hinside]
      simp
    rw [hinside, Array.toList_appendList]
    exact .topLevel hopen ⟨u, u', hrun, hcoded⟩ hbody

end LoopJump

/-- Every `break` and `continue` that code is generated for jumps to a label of the innermost
loop that has it in its body. Without one, it jumps behind its statement of the top level or,
with the zero of the result, to the end of its function. No label is placed twice. -/
theorem Program.loop_jumps_of_compile {p : Program} {c : Compiled} (h : p.compile = .ok c) :
    (c.listing.routines.flatMap (placed ·.code)).Nodup ∧
      ∃ ts, ∀ f ∈ lastOfName p.functions, ∃ r ∈ c.listing.routines, ∃ g, Generates p ts f g r ∧
        ∀ (site : Site .statement) (jump : LoopJump), site.Holds jump.stmt p f →
          ∃ h, site.lead ts f g = .ok () h ∧
            jump.Leads c.listing.strings f r site h.code.toList := by
  obtain ⟨hplaced, ts, hgenerates⟩ := Program.generates_of_compile h
  refine ⟨hplaced, ts, fun f hf => ?_⟩
  obtain ⟨r, hr, g, hg, _, hrun, hstrings⟩ := hgenerates f hf
  refine ⟨r, hr, g, hg, fun site jump hsite => ?_⟩
  rcases site.innermost with hopen | ⟨outer, loop, inner, rfl, hinner⟩
  · exact LoopJump.leads_open hg hrun hstrings hopen hsite
  · exact LoopJump.leads_loop hg hinner hsite

/-- In the condition of a loop, `break` leads out of the loop around it. -/
theorem Program.loop_jumps_of_compile_condition :
    let site : Site .statement := .body (.within (.head false []) (.within
      (.loopBody (.whileLoop (.boolean true default) default)) (.within
      (.whileCondition (.block ⟨[], default⟩) default) (.within (.run default default)
      (.within (.head true []) .here)))))
    let f : Function := ⟨"main", [], .unit, ⟨[.whileLoop (.boolean true default)
      (.whileLoop (.run ⟨[.break default], default⟩ default) (.block ⟨[], default⟩) default)
      default], default⟩, default⟩
    let p : Program := ⟨[.function f], default⟩
    ∃ c r ts g h, p.compile = .ok c ∧ r ∈ c.listing.routines ∧ site.lead ts f g = .ok () h ∧
      (LoopJump.break default).Leads c.listing.strings f r site h.code.toList := by
  intro site f p
  have hrun : p.compile.toOption.any (fun _ => true) = true := by decide +kernel
  obtain ⟨c, hc, -⟩ := exists_of_any hrun
  obtain ⟨-, ts, hjumps⟩ := Program.loop_jumps_of_compile hc
  obtain ⟨r, hr, g, -, hleads⟩ := hjumps f List.mem_cons_self
  obtain ⟨h, hlead, hleads⟩ := hleads site (.break default) rfl
  exact ⟨c, r, ts, g, h, hc, hr, hlead, hleads⟩

end ScriptLang
