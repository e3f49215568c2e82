import ScriptLang.Proofs.Codegen.Totality
import ScriptLang.Proofs.Evaluation.Stopping
import ScriptLang.Proofs.Grammar.Placement
import ScriptLang.Proofs.Grammar.WellFormed
import ScriptLang.Proofs.Report
import ScriptLang.Proofs.Token.Scanning

/-!
# Faults point into their source

Whatever is reported of a source, by the parser, by a run or by the generator, is said of
a place in it: its start, the start of a token, or a character that starts no token. So a
report always has a line to show, and a caret below it.
-/

namespace ScriptLang

variable {source file : String} {position : Position} {f : Fault}

/-- The start of a source, or of a token in it. -/
def Position.IsMark (source file : String) (position : Position) : Prop :=
  position = .origin file ∨ ∃ tokens t, Token.ofSource source file = .ok tokens ∧ t ∈ tokens ∧
    t.span.start = position

/-- In front of a character of a source, or at its end. -/
def Position.IsBoundary (source file : String) (position : Position) : Prop :=
  ∃ before after, source.toList = before ++ after ∧ position = ⟨byteLength before, file⟩

/-- The fault is that no token starts with a character of the source, and it is said of that
character. -/
def Fault.Rejects (source file : String) (f : Fault) : Prop :=
  ∃ before c after, source.toList = before ++ c :: after ∧ Lexeme.first? (c :: after) = none ∧
    f = ⟨.unrecognisedToken c.toString, ⟨byteLength before, file⟩⟩

/-- A report of the fault shows a line of the source: the one that holds its place, without the
indentation, which is cut off between characters, and with a caret below. -/
structure Fault.Shows (source : String) (f : Fault) (v : LineView) : Prop where
  found : lineAt? source.toList f.position.offset = some v
  holds : v.Shows source.toList f.position.offset
  cut : ∃ rest, v.text = v.indentation ++ rest ∧
    byteLength v.indentation = v.indentation.length ∧ v.shown = Text.trimEnd rest
  ends : ∀ name, ∃ heading, f.report source name = heading ++ v.render
  pictures : ∀ name, Pictures (f.report source name).toList v.number v.shown
    ((toString v.number).length + 3 + (v.column - v.indentation.length))

/-- The fault is said of a place in a source, and a report shows that place. -/
structure Fault.PointsInto (source file : String) (f : Fault) : Prop where
  sameFile : f.position.file = file
  within : f.position.offset ≤ byteLength source.toList
  boundary : f.position.IsBoundary source file
  mark : f.position.IsMark source file ∨ f.Rejects source file
  shown : ∃ v, f.Shows source v

/-- What can be reported of a source: a fault that stops the parser, a run or the generator,
or a diagnostic of a run, finished or not, or of the generator. -/
inductive Raises (source file : String) : Fault → Prop
  | parsing {f : Fault} : Program.ofSource source file = .error (.fault f) → Raises source file f
  | running {p : Program} {fuel : Nat} {f : Fault} {s : Evaluation} :
    Program.ofSource source file = .ok p → p.run fuel = .error (.fault f) s → Raises source file f
  | stopped {p : Program} {fuel : Nat} {halt : Halt} {f : Fault} {s : Evaluation} :
    Program.ofSource source file = .ok p → p.run fuel = .error halt s → f ∈ s.diagnostics →
    Raises source file f
  | finished {p : Program} {fuel : Nat} {f : Fault} {s : Evaluation} :
    Program.ofSource source file = .ok p → p.run fuel = .ok () s → f ∈ s.diagnostics →
    Raises source file f
  | compiling {f : Fault} : compileSource source file = .error (.fault f) → Raises source file f
  | compiled {c : Compiled} {f : Fault} :
    compileSource source file = .ok c → f ∈ c.diagnostics → Raises source file f

/-! ## Places in a source -/

/-- Tokens start in front of a character of their source, and the last one at its end. -/
theorem Position.IsMark.isBoundary (h : position.IsMark source file) :
    position.IsBoundary source file := by
  rcases h with rfl | ⟨tokens, t, htokens, ht, rfl⟩
  · exact ⟨[], source.toList, rfl, rfl⟩
  rcases Token.scan_cases file source.toList 0 with
    ⟨found, hscan, hs⟩ | ⟨before, c, after, found, hsource, hscan, hnone, hs⟩
  · rw [Token.ofSource, hs] at htokens
    cases htokens
    rcases List.mem_append.mp ht with ht | ht
    · obtain ⟨before, lexeme, after, hsource, -, hspan, -⟩ := hscan.tiles.liesIn t ht
      refine ⟨before, lexeme ++ after, by rw [hsource, List.append_assoc], ?_⟩
      rw [hspan, Nat.zero_add]
    · obtain rfl := List.mem_singleton.mp ht
      exact ⟨source.toList, [], (List.append_nil _).symm, by rw [Token.eof, Nat.zero_add]⟩
  · rw [Token.ofSource, hs] at htokens
    cases htokens

theorem Fault.Rejects.isBoundary (h : f.Rejects source file) :
    f.position.IsBoundary source file := by
  obtain ⟨before, c, after, hsource, -, rfl⟩ := h
  exact ⟨before, c :: after, hsource, rfl⟩

/-- A source has no tokens if no token starts with one of its characters. -/
theorem Token.rejects_of_ofSource (h : ofSource source file = .error f) :
    f.Rejects source file := by
  rcases scan_cases file source.toList 0 with
    ⟨found, hscan, hs⟩ | ⟨before, c, after, found, hsource, hscan, hnone, hs⟩
  · rw [ofSource, hs] at h
    cases h
  · rw [ofSource, hs, Nat.zero_add] at h
    cases h
    exact ⟨before, c, after, hsource, hnone, rfl⟩

/-- A fault that is said of a boundary in a source can be shown. -/
theorem Fault.PointsInto.of_boundary (h : f.position.IsBoundary source file)
    (hm : f.position.IsMark source file ∨ f.Rejects source file) : f.PointsInto source file := by
  obtain ⟨before, after, hsource, hposition⟩ := h
  have hoffset : f.position.offset = byteLength before := by rw [hposition]
  obtain ⟨v, hv, hshows⟩ := exists_lineAt hsource
  rw [← hoffset] at hv hshows
  have hsize : byteLength source.toList = byteLength before + byteLength after := by
    rw [hsource, byteLength_append]
  exact ⟨by rw [hposition], by omega, ⟨before, after, hsource, hposition⟩, hm, v, hv, hshows,
    v.exists_cut, exists_report hv, pictures_report hv (LineView.newline_notMem_shown hshows)⟩

/-- A cursor in front of the tokens of a source reads positions of tokens in it. -/
theorem Cursor.within_ofSource {tokens : List Token}
    (h : Token.ofSource source file = .ok tokens) :
    (Cursor.ofTokens tokens file).Within (Position.IsMark source file) := by
  have hmark : ∀ t ∈ tokens, t.span.start.IsMark source file := fun t ht =>
    .inr ⟨tokens, t, h, ht, rfl⟩
  rcases Token.scan_cases file source.toList 0 with
    ⟨found, -, hs⟩ | ⟨_, _, _, _, -, -, -, hs⟩
  · rw [Token.ofSource, hs] at h
    cases h
    rw [Cursor.ofTokens, List.getLast?_concat]
    simp only [Token.eof, ↓reduceIte, List.dropLast_concat]
    obtain ⟨hfound, hlast⟩ := List.forall_mem_append.mp hmark
    exact ⟨hfound, hlast _ (List.mem_singleton_self _)⟩
  · rw [Token.ofSource, hs] at h
    cases h

/-! ## What is reported of a source -/

/-- A fault of the parser is said of a token, or of a character that starts none. -/
theorem Program.marks_of_ofSource (h : ofSource source file = .error (.fault f)) :
    f.position.IsMark source file ∨ f.Rejects source file := by
  unfold ofSource at h
  cases htokens : Token.ofSource source file with
  | error fault =>
    rw [htokens] at h
    cases h
    exact .inr (Token.rejects_of_ofSource htokens)
  | ok tokens =>
    rw [htokens] at h
    exact .inl ((ofTokens_placed (Cursor.within_ofSource htokens)).1 f h)

/-- A program that was parsed is well-formed, and its nodes start where tokens start. -/
theorem Program.wellPlaced_of_ofSource {p : Program} (h : ofSource source file = .ok p) :
    (wellPlaced (Position.IsMark source file)).InProgram p ∧
      p.span.start.IsMark source file := by
  unfold ofSource at h
  cases htokens : Token.ofSource source file with
  | error fault =>
    rw [htokens] at h
    cases h
  | ok tokens =>
    rw [htokens] at h
    have hplaced := (ofTokens_placed (Cursor.within_ofSource htokens)).2 p h
    refine ⟨NodeProperty.inStmts_and (ofTokens_wellFormed h) hplaced, .inl ?_⟩
    dsimp only at h
    unfold ofTokens at h
    split at h
    · cases h
      rfl
    · cases h

/-- Compiling a program that was parsed reports only where nodes of it start. -/
theorem marks_of_compileSource {p : Program} (hp : Program.ofSource source file = .ok p) :
    (∀ f, compileSource source file = .error (.fault f) → f.position.IsMark source file) ∧
      ∀ c, compileSource source file = .ok c →
        ∀ f ∈ c.diagnostics, f.position.IsMark source file := by
  obtain ⟨hplaced, hstart⟩ := Program.wellPlaced_of_ofSource hp
  rw [compileSource, hp]
  dsimp only
  rcases Program.compile_of_wellPlaced hplaced with ⟨-, c, hc, hd⟩ | ⟨-, hc⟩
  · rw [hc]
    exact ⟨fun f hf => (by cases hf), fun c' hc' => by cases hc'; exact hd⟩
  · rw [hc]
    exact ⟨fun f hf => by cases hf; exact hstart, fun c' hc' => by cases hc'⟩

/-- Whatever is reported of a source has a place in it, and a report shows the place. -/
theorem pointsInto_of_raises (h : Raises source file f) : f.PointsInto source file := by
  have hmark : f.position.IsMark source file ∨ f.Rejects source file := by
    -- Runs end safely from the start, wherever the property they are safe for holds.
    have hrun : ∀ {p : Program} (fuel : Nat), Program.ofSource source file = .ok p →
        Eval.EndsSafely (Position.IsMark source file) (p.run fuel) := by
      intro p fuel hp
      obtain ⟨hplaced, hstart⟩ := Program.wellPlaced_of_ofSource hp
      exact Eval.Safe.run fuel hplaced hstart _ Evaluation.placed_new
    cases h with
    | parsing hp => exact Program.marks_of_ofSource hp
    | @running p fuel _ _ hp hr =>
      have hends := hrun fuel hp
      rw [hr] at hends
      cases hends with
      | fault _ hf _ => exact .inl hf
    | @stopped p fuel _ _ _ hp hr hd =>
      have hends := hrun fuel hp
      rw [hr] at hends
      cases hends with
      | fault _ _ hs => exact .inl (hs.diagnostics _ hd)
      | outOfFuel hs => exact .inl (hs.diagnostics _ hd)
    | @finished p fuel _ _ hp hr hd =>
      have hends := hrun fuel hp
      rw [hr] at hends
      cases hends with
      | ok hs => exact .inl (hs.diagnostics _ hd)
    | compiling hc =>
      cases hp : Program.ofSource source file with
      | ok p => exact .inl ((marks_of_compileSource hp).1 f hc)
      | error halt =>
        rw [compileSource, hp] at hc
        cases hc
        exact Program.marks_of_ofSource hp
    | @compiled c _ hc hd =>
      cases hp : Program.ofSource source file with
      | ok p => exact .inl ((marks_of_compileSource hp).2 c hc f hd)
      | error halt =>
        rw [compileSource, hp] at hc
        cases hc
  exact .of_boundary (hmark.elim (·.isBoundary) (·.isBoundary)) hmark

/-- A variable is missing behind a character of two bytes. -/
theorem pointsInto_of_raises_undeclared :
    let source := "fun main() \x7b println(\"é\" + x) \x7d"
    let f : Fault := ⟨.variableNotDeclared "x", ⟨28, "text.kt"⟩⟩
    Raises source "text.kt" f ∧ f.PointsInto source "text.kt" := by
  intro source f
  have hk : (compileSource source "text.kt").toOption.any (fun c => c.diagnostics = [f]) = true := by
    decide +kernel
  obtain ⟨c, hc, hk⟩ := exists_of_any hk
  have hf : f ∈ c.diagnostics := of_decide_eq_true hk ▸ List.mem_singleton_self f
  exact ⟨.compiled hc hf, pointsInto_of_raises (.compiled hc hf)⟩

end ScriptLang
