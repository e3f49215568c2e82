import ScriptLang.Assembly.Listing
import ScriptLang.Codegen.Generator
import ScriptLang.Codegen.Static
import ScriptLang.Grammar.Source
import ScriptLang.Halt

/-!
# Code for programs

Functions, global cells and float constants are registered first. Then each
function is generated; of those that share a name, only the last counts. The
statements of the top level stand at the head of `main`.
-/

namespace ScriptLang

open Assembly

/-- The symbol of a function in the listing. -/
def symbolOf (name : String) : String := if name = "main" then name else "kt_" ++ name

/-- The name of the cell of a global, declared before as many times. -/
def cellName (name : String) (before : Nat) : String :=
  if before = 0 then name else s!"{name}.{before}"

/-- The functions that no later one replaces. -/
def lastOfName : List Function → List Function
  | [] => []
  | f :: fs => if fs.any (·.name = f.name) then lastOfName fs else f :: lastOfName fs

/-- A statement of the top level, with the cell it declares if it declares one. -/
structure TopLevelStmt where
  stmt : Stmt
  cell : Option Slot

namespace Gen

/-- Makes functions known by name. One that replaces another is reported. -/
def registerFunctions : List Function → Gen Unit
  | [] => return
  | f :: fs => do
    if (← get).signatures.contains f.name then
      report (.functionAlreadyDeclared f.name) f.span.start
    modify fun g => { g with signatures := g.signatures.insert f.name ⟨symbolOf f.name, f⟩ }
    registerFunctions fs

/-- The return types of the functions. -/
def returnTypes (g : Generator) : NameMap DeclaredType :=
  ⟨g.signatures.entries.map fun (name, s) => (name, s.function.returns)⟩

/-- The type of the cell of a global. -/
def cellType (g : Generator) (type : Option DeclaredType) (value : Option Expr) : ValueType :=
  match type, value with
  | some t, _ => t.valueType
  | none, some e => e.staticType g.globals (returnTypes g)
  | none, none => .integer

/-- Gives each declaration of the top level a cell of its own; names mean the cell
declared last. `seen` holds the names declared before. -/
def registerCells (seen : List String) : List Stmt → Gen (List TopLevelStmt)
  | [] => return []
  | s :: rest => do
    match s with
    | .declare name constant type value _ =>
      let slot : Slot := ⟨.cell (cellName name (seen.count name)),
        cellType (← get) type value, !constant⟩
      modify fun g => { g with globals := g.globals.insert name slot }
      return ⟨s, some slot⟩ :: (← registerCells (name :: seen) rest)
    | _ => return ⟨s, none⟩ :: (← registerCells seen rest)

/-- Puts floats in the pool. -/
def internFloats : List Float → Gen Unit
  | [] => return
  | x :: xs => do
    let _ ← internFloat x.toBits
    internFloats xs

/-- Registers a program and gives the statements of its top level. -/
def register (p : Program) : Gen (List TopLevelStmt) := do
  registerFunctions p.functions
  unless (← get).signatures.contains "main" do
    throw ⟨.missingMain, p.span.start⟩
  let topLevel ← registerCells [] p.topLevel
  internFloats (1 :: bodyFloats p.body)
  return topLevel

/-- Generates a statement of the top level. -/
def topLevelStatement (t : TopLevelStmt) : Gen Unit := do
  let exit : Label := .numbered .topEnd (← nextLabel)
  modify fun g => { g with topLevelExit := some exit }
  match t.stmt, t.cell with
  | .declare name constant type value span, some cell =>
    emitDeclaration (some cell) name constant type (← option value) span.start
  | s, _ => statement s
  emit [.label exit]

def topLevelStatements : List TopLevelStmt → Gen Unit
  | [] => modify fun g => { g with topLevelExit := none }
  | t :: ts => do
    topLevelStatement t
    topLevelStatements ts

/-- Stores arguments in slots named for the parameters. -/
def receiveParameters : List Parameter → List Passage → Gen Unit
  | p :: ps, passage :: passages => do
    let slot ← declare p.name p.type.valueType true
    emit (passage.receive slot)
    receiveParameters ps passages
  | _, _ => return

/-- Generates a function. Falling off its end yields zero. -/
def function (topLevel : List TopLevelStmt) (f : Function) : Gen Routine := do
  let symbol := symbolOf f.name
  modify fun g =>
    { g with frame := .new, code := #[], loops := [], current := some ⟨symbol, f.returns⟩ }
  receiveParameters f.parameters (Passage.ofTypes (f.parameters.map (·.type.valueType)))
  if f.name = "main" then topLevelStatements topLevel
  inScope (statements f.body.body)
  emitZero f.returns.valueType
  let g ← get
  modify fun g => { g with current := none }
  return ⟨symbol, g.frame.size, g.code.toList⟩

def functions (topLevel : List TopLevelStmt) : List Function → Gen (List Routine)
  | [] => return []
  | f :: fs => do
    let routine ← function topLevel f
    return routine :: (← functions topLevel fs)

/-- Generates a program. -/
def program (p : Program) : Gen Listing := do
  let topLevel ← register p
  let routines ← functions topLevel (lastOfName p.functions)
  let cells := topLevel.filterMap fun t => match t.cell with
    | some ⟨.cell name, type, _⟩ => some (name, type.size / 8)
    | _ => none
  let g ← get
  return ⟨cells, g.strings.toList, g.floats.toList, routines⟩

end Gen

/-- A listing with the diagnostics met on the way. -/
structure Compiled where
  listing : Listing
  diagnostics : List Fault

def Program.compile (p : Program) : Except Fault Compiled :=
  match Gen.program p .new with
  | .ok listing g => .ok ⟨listing, g.diagnostics⟩
  | .error f _ => .error f

/-- Compiles the program a source spells. -/
def compileSource (source file : String) : Except Halt Compiled :=
  match Program.ofSource source file with
  | .error halt => .error halt
  | .ok p => match p.compile with
    | .ok c => .ok c
    | .error f => .error (.fault f)

end ScriptLang
