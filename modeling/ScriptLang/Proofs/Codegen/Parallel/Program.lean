import ScriptLang.Proofs.Codegen.Making.Program
import ScriptLang.Proofs.Codegen.Parallel.Statement
import ScriptLang.Proofs.Registration

/-!
# Functions and programs side by side

Behind each function names mean again what they meant in front of it, whatever the
statements of the top level rebind on the way. So a function may be generated in front of
another or behind it. From one start, a program and its core have the same listing.
-/

namespace ScriptLang

open Assembly

/-! ## The top level -/

namespace TopLevelStmt

def core (t : TopLevelStmt) : TopLevelStmt := ⟨t.stmt.core, t.cell⟩

/-- What global names mean behind the statement. -/
def rebind (globals : String → Option Slot) (t : TopLevelStmt) : String → Option Slot :=
  match t.stmt, t.cell with
  | .declare name .., some cell => fun other => if other = name then some cell else globals other
  | _, _ => globals

/-- The cell that a name means by the statement, if it declares that name. -/
def cell? (t : TopLevelStmt) (name : String) : Option Slot :=
  match t.stmt with
  | .declare n .. => if name = n then t.cell else none
  | _ => none

theorem rebind_eq (globals : String → Option Slot) (t : TopLevelStmt) (name : String) :
    t.rebind globals name = (t.cell? name).or (globals name) := by
  obtain ⟨stmt, cell⟩ := t
  unfold rebind cell?
  cases stmt with
  | declare =>
    cases cell with
    | none => simp
    | some cell => dsimp only; split <;> rfl
  | _ => rfl

/-- What global names mean behind statements. -/
def rebindAll (globals : String → Option Slot) (ts : List TopLevelStmt) : String → Option Slot :=
  ts.foldl rebind globals

/-- What the statements leave alone means what it meant in front of them. -/
theorem rebindAll_eq (globals : String → Option Slot) (ts : List TopLevelStmt) (name : String) :
    rebindAll globals ts name = (rebindAll (fun _ => none) ts name).or (globals name) := by
  induction ts generalizing globals with
  | nil => rfl
  | cons t ts ih =>
    change rebindAll (t.rebind globals) ts name = (rebindAll (t.rebind fun _ => none) ts name).or _
    rw [ih (t.rebind globals), ih (t.rebind fun _ => none), rebind_eq, rebind_eq, Option.or_none,
      Option.or_assoc]

/-- Statements that come once more leave every name with the meaning it has. -/
theorem rebindAll_rebindAll (globals : String → Option Slot) (ts : List TopLevelStmt) :
    rebindAll (rebindAll globals ts) ts = rebindAll globals ts := by
  funext name
  rw [rebindAll_eq (rebindAll globals ts), rebindAll_eq globals, ← Option.or_assoc, Option.or_self]

end TopLevelStmt

namespace Gen

open Generator (Outset Alike SameConstant)

variable {o : Outset} {G G' : String → Option Slot}

/-- A statement of the top level around the code of its parts. -/
theorem topLevel_around {x y : Gen Unit}
    (hxy : Corresponds (Alike o G) (fun _ _ => Alike o G') NoRange x y) :
    Corresponds (Alike o G) (fun _ _ => Alike o G') NoRange
      (do
        let n ← nextLabel
        modify fun g => { g with topLevelExit := some (.numbered .topEnd n) }
        x
        emit [.label (.numbered .topEnd n)])
      (do
        let n ← nextLabel
        modify fun g => { g with topLevelExit := some (.numbered .topEnd n) }
        y
        emit [.label (.numbered .topEnd n)]) := by
  refine Corresponds.bind yoked_nextLabel fun a b s t ⟨hab, hst⟩ => ?_
  have hmark : o.Marks (.numbered .topEnd a) (.numbered .topEnd b) := .intro _ hab
  have hexit : Corresponds (Alike o G) (fun _ _ => Alike o G) NoRange
      (modify fun g : Generator => { g with topLevelExit := some (.numbered .topEnd a) })
      (modify fun g : Generator => { g with topLevelExit := some (.numbered .topEnd b) }) :=
    .modify fun _ _ hgh => { hgh with topLevelExit := .some hmark }
  refine hexit.bind (fun _ _ => hxy.bind fun _ _ => ?_) s t hst
  exact .modify fun _ _ hgh => hgh.emit (.cons (.label hmark) .nil)

/-- The cell is what the name means from there on. -/
theorem rebinding_emitDeclaration (cell : Slot) (name : String) (constant : Bool)
    (type : Option DeclaredType) (value : Option ValueType) (p p' : Position) :
    Corresponds (Alike o G)
      (fun _ _ => Alike o fun other => if other = name then some cell else G other) NoRange
      (emitDeclaration (some cell) name constant type value p)
      (emitDeclaration (some cell) name constant type value p') := by
  let G' := fun other => if other = name then some cell else G other
  have hstore : Matches o G' _ _ := (Matches.pure cell).bind (Matches.storeDeclared value p p')
  refine Corresponds.bind (q := fun _ _ => Alike o G') (.modify fun g h hgh => ?_) fun _ _ =>
    Corresponds.weaken (fun _ _ => id) (fun _ _ _ _ h => h.2) hstore
  exact hgh.insert name cell

theorem topLevelStatement_core (t : TopLevelStmt) :
    Corresponds (Alike o G) (fun _ _ => Alike o (t.rebind G)) NoRange
      (topLevelStatement t) (topLevelStatement t.core) := by
  have hplain : ∀ s : Stmt, Corresponds (Alike o G) (fun _ _ => Alike o G) NoRange (statement s)
      (statement s.core) := fun s =>
    Corresponds.weaken (fun _ _ => id) (fun _ _ _ _ h => h.2) (statement_core s)
  obtain ⟨stmt, cell⟩ := t
  cases cell with
  | none =>
    have h := topLevel_around (hplain stmt)
    cases stmt with
    | block b => cases b; exact h
    | function f => obtain ⟨_, _, _, ⟨_, _⟩, _⟩ := f; exact h
    | _ => exact h
  | some cell =>
    cases stmt with
    | declare name constant type value span =>
      have hdeclare : Corresponds (Alike o G) (fun _ _ => Alike o
            (TopLevelStmt.rebind G ⟨.declare name constant type value span, some cell⟩)) NoRange
          (do emitDeclaration (some cell) name constant type (← option value) span.start)
          (do
            emitDeclaration (some cell) name constant type (← option (Expr.coreOption value))
              (default : Span).start) := by
        refine Corresponds.bind (option_core value) fun v v' s t ⟨hv, hst⟩ => ?_
        subst hv
        exact rebinding_emitDeclaration cell name constant type v _ _ s t hst
      have h := topLevel_around hdeclare
      simp only [bind_assoc] at h
      exact h
    | block b =>
      cases b
      exact topLevel_around (hplain _)
    | function f =>
      obtain ⟨_, _, _, ⟨_, _⟩, _⟩ := f
      exact topLevel_around (hplain _)
    | _ => exact topLevel_around (hplain _)

theorem topLevelStatements_core : ∀ (ts : List TopLevelStmt) {G : String → Option Slot},
    Corresponds (Alike o G) (fun _ _ => Alike o (TopLevelStmt.rebindAll G ts)) NoRange
      (topLevelStatements ts) (topLevelStatements (ts.map TopLevelStmt.core))
  | [], _ => .modify fun _ _ hgh => { hgh with topLevelExit := .none }
  | t :: ts, _ => (topLevelStatement_core t).bind fun _ _ => topLevelStatements_core ts

/-! ## Functions -/

theorem matches_receiveParameters : ∀ (ps : List Parameter) (passages : List Passage),
    Matches o G (receiveParameters ps passages) (receiveParameters ps passages)
  | p :: ps, passage :: passages =>
    (Matches.declare p.name _ true).bind fun _ =>
      (Matches.emitFixed (fixedCode_receive passage)).bind fun _ =>
        matches_receiveParameters ps passages
  | [], _ | _ :: _, [] => .pure _

/-- The same routine, on labels that mean the same. -/
structure RoutineAgrees (m d : Label → Label → Prop) (r r' : Routine) : Prop where
  symbol : r.symbol = r'.symbol
  frameSize : r.frameSize = r'.frameSize
  body : CodeAgrees m d r.body r'.body

theorem RoutineAgrees.eq {m d : Label → Label → Prop} {r r' : Routine}
    (hm : ∀ l l', m l l' → l = l') (hd : ∀ l l', d l l' → l = l') (h : RoutineAgrees m d r r') :
    r = r' := by
  obtain ⟨symbol, frameSize, body⟩ := r
  obtain ⟨symbol', frameSize', body'⟩ := r'
  obtain ⟨rfl, rfl, hbody⟩ := h
  rw [show body = body' from hbody.eq hm hd]

/-- Two states between functions in which names mean the same, global names what `G` says. -/
structure Abreast (G : String → Option Slot) (g h : Generator) : Prop where
  signatures : ∀ name, (g.signatures.find? name).map Signature.interface =
    (h.signatures.find? name).map Signature.interface
  globals : g.globals.find? = G ∧ h.globals.find? = G
  outside : g.topLevelExit = none ∧ h.topLevelExit = none

theorem Abreast.alike {g h : Generator} (hgh : Abreast G g h) (current : CurrentFunction) :
    Alike ⟨g, h⟩ G
      { g with frame := .new, code := #[], loops := [], current := some current }
      { h with frame := .new, code := #[], loops := [], current := some current } where
  signatures := hgh.signatures
  globals := hgh.globals
  frame := rfl
  code := .nil
  strings := ⟨[], rfl, rfl⟩
  floats := ⟨[], rfl, rfl⟩
  labels := ⟨0, rfl, rfl⟩
  loops := .nil
  current := rfl
  topLevelExit := by
    rw [hgh.outside.1, hgh.outside.2]
    exact .none
  diagnostics := ⟨[], (List.append_nil _).symm, (List.append_nil _).symm⟩

/-- Behind a function, names mean what they meant in front of it. -/
theorem function_core {ts : List TopLevelStmt} (hts : TopLevelStmt.rebindAll G ts = G)
    {g h : Generator} (hgh : Abreast G g h) (f : Function) :
    EndAlike (fun r r' g' h' => RoutineAgrees (Outset.Marks ⟨g, h⟩) (SameConstant g' h') r r' ∧
        Alike ⟨g, h⟩ G g' h') NoRange
      (function ts f g) (function (ts.map TopLevelStmt.core) f.core h) := by
  have hend : ∀ {o : Outset} (symbol : String), Corresponds (Alike o G)
      (fun r r' g' h' => RoutineAgrees o.Marks (SameConstant g' h') r r' ∧ Alike o G g' h') NoRange
      (do
        inScope (statements f.body.body)
        emitZero f.returns.valueType
        let g ← get
        modify fun g : Generator => { g with current := none }
        return (⟨symbol, g.frame.size, g.code.toList⟩ : Routine))
      (do
        inScope (statements f.core.body.body)
        emitZero f.returns.valueType
        let g ← get
        modify fun g : Generator => { g with current := none }
        return (⟨symbol, g.frame.size, g.code.toList⟩ : Routine)) := by
    intro o symbol
    refine Corresponds.bind (statements_core f.body.body).inScope fun _ _ => ?_
    refine Corresponds.bind (q := fun _ _ => Alike o G) (p := fun s t => _ ∧ Alike o G s t)
      ?_ fun _ _ => Corresponds.get_bind fun s t hst => ?_
    · exact Corresponds.weaken (fun _ _ h => h.2) (fun _ _ _ _ h => h.2) (Matches.emitZero _)
    · exact .ok ⟨⟨rfl, congrArg Frame.size hst.frame, hst.code⟩, { hst with current := rfl }⟩
  have hmain : Corresponds (Alike ⟨g, h⟩ G) (fun _ _ => Alike ⟨g, h⟩ G) NoRange
      (topLevelStatements ts) (topLevelStatements (ts.map TopLevelStmt.core)) := by
    have hstatements := topLevelStatements_core (o := ⟨g, h⟩) (G := G) ts
    rwa [hts] at hstatements
  let enter : Gen Unit := modify fun g => { g with
    frame := .new, code := #[], loops := [], current := some ⟨symbolOf f.name, f.returns⟩ }
  have hstart : Corresponds (fun s t => s = g ∧ t = h) (fun _ _ => Alike ⟨g, h⟩ G) NoRange
      enter enter := by
    refine .modify ?_
    rintro _ _ ⟨rfl, rfl⟩
    exact hgh.alike _
  refine hstart.bind (fun _ _ => ?_) g h ⟨rfl, rfl⟩
  refine Corresponds.bind (matches_receiveParameters f.parameters _) fun _ _ => ?_
  refine Corresponds.weaken (p := Alike ⟨g, h⟩ G) (fun _ _ h => h.2) (fun _ _ _ _ => id) ?_
  exact Corresponds.ite Iff.rfl (fun _ => hmain.bind fun _ _ => hend _) fun _ => hend _

/-! ## Registration -/

theorem find?_returnTypes (g : Generator) (name : String) :
    (returnTypes g).find? name = (g.signatures.find? name).map (·.function.returns) := by
  unfold returnTypes NameMap.find?
  induction g.signatures.entries with
  | nil => rfl
  | cons e rest ih =>
    obtain ⟨n, s⟩ := e
    rw [List.map_cons, List.lookup_cons, List.lookup_cons, ih]
    split <;> rfl

theorem cellType_core {g h : Generator} (hgh : Alike o G g h) (type : Option DeclaredType)
    (value : Option Expr) : cellType h type (Expr.coreOption value) = cellType g type value := by
  cases type with
  | some t => rfl
  | none =>
    cases value with
    | none => rfl
    | some e =>
      refine e.staticType_core (hgh.globals.2.trans hgh.globals.1.symm) (funext fun name => ?_)
      rw [find?_returnTypes, find?_returnTypes]
      have hs := congrArg (Option.map fun i => i.2.2) (hgh.signatures name)
      rw [Option.map_map, Option.map_map] at hs
      exact hs.symm

theorem registerCells_core : ∀ (body : List Stmt) (seen : List String) {G : String → Option Slot},
    Corresponds (Alike o G) (fun ts ts' s t => ts' = ts.map TopLevelStmt.core ∧
        Alike o (TopLevelStmt.rebindAll G ts) s t) NoRange
      (registerCells seen body) (registerCells seen (body.map Stmt.core))
  | [], _, _ => .pure fun _ _ h => ⟨rfl, h⟩
  | s :: rest, seen, G => by
    have hplain : Corresponds (Alike o G) (fun ts ts' s t => ts' = ts.map TopLevelStmt.core ∧
          Alike o (TopLevelStmt.rebindAll G ts) s t) NoRange
        (do return ⟨s, none⟩ :: (← registerCells seen rest))
        (do return ⟨s.core, none⟩ :: (← registerCells seen (rest.map Stmt.core))) := by
      refine (registerCells_core rest seen).bind fun ts ts' => .pure fun t u ⟨hts, htu⟩ => ⟨?_, ?_⟩
      · rw [hts]
        rfl
      · have hsame : TopLevelStmt.rebind G ⟨s, none⟩ = G := by cases s <;> rfl
        change Alike o (TopLevelStmt.rebindAll (TopLevelStmt.rebind G ⟨s, none⟩) ts) t u
        rwa [hsame]
    cases s with
    | declare name constant type value span =>
      refine Corresponds.get_bind fun g h hgh => ?_
      rw [cellType_core hgh]
      let cell : Slot := ⟨.cell (cellName name (seen.count name)), cellType g type value, !constant⟩
      have hinsert : Corresponds (Alike o G) (fun _ _ => Alike o
            (TopLevelStmt.rebind G ⟨.declare name constant type value span, some cell⟩)) NoRange
          (modify fun g : Generator => { g with globals := g.globals.insert name cell })
          (modify fun g : Generator => { g with globals := g.globals.insert name cell }) :=
        .modify fun g h hgh => hgh.insert name cell
      refine (hinsert.bind fun _ _ => (registerCells_core rest (name :: seen)).bind
        fun ts ts' => .pure fun s t ⟨hts, hst⟩ => ⟨?_, hst⟩) g h hgh
      rw [hts]
      rfl
    | block b => cases b; exact hplain
    | function f => obtain ⟨_, _, _, ⟨_, _⟩, _⟩ := f; exact hplain
    | _ => exact hplain

theorem matches_internFloats : ∀ xs : List Float, Matches o G (internFloats xs) (internFloats xs)
  | [] => .pure _
  | x :: xs => Corresponds.bind (interns_float x.toBits) fun _ _ =>
    Corresponds.weaken (fun _ _ h => h.1) (fun _ _ _ _ => id) (matches_internFloats xs)

/-- The functions become known, up to spans and parentheses. -/
theorem registerFunctions_core : ∀ fs : List Function,
    Matches o G (registerFunctions fs) (registerFunctions (fs.map Function.core))
  | [] => .pure _
  | f :: fs => by
    have hinsert : Matches o G
        (do
          modify fun g => { g with signatures := g.signatures.insert f.name ⟨symbolOf f.name, f⟩ }
          registerFunctions fs)
        (do
          modify fun g =>
            { g with signatures := g.signatures.insert f.name ⟨symbolOf f.name, f.core⟩ }
          registerFunctions (fs.map Function.core)) := by
      refine .bind (.modify fun g h hgh => ?_) fun _ => registerFunctions_core fs
      refine { hgh with signatures := fun name => ?_ }
      rw [NameMap.find?_insert, NameMap.find?_insert]
      split
      · rfl
      · exact hgh.signatures name
    refine .get_bind fun g h hgh => ?_
    have hknown : g.signatures.contains f.name = h.signatures.contains f.name := hgh.contains f.name
    rw [hknown]
    exact .branch _ ((Matches.report _ _ _).bind fun _ => hinsert) hinsert

end Gen

end ScriptLang
