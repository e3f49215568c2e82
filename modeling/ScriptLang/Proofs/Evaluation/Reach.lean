import ScriptLang.Proofs.Evaluation.Keeping

/-!
# What is run while a task runs

A task is an expression, a statement, a call, or a part of their evaluation that is
run as a whole: a sequence of statements, the laps of a loop. The tasks that a task
starts, each behind what is done before it, are listed for each form of task; those
reached in the end are all that are ever run.
-/

namespace ScriptLang

namespace Eval

inductive Activity where
  | value (e : Expr)
  | values (es : List Expr)
  | option (e : Option Expr)
  /-- Statements for the value of the last one. -/
  | block (body : List Stmt) (last : Value)
  | bounds (position : Position) (e : Expr)
  | step (e : Option Expr)
  | statement (s : Stmt)
  | alternative (s : Option Stmt)
  | body (body : List Stmt)
  | whileLaps (condition : Expr) (body : Stmt) (fuel : Nat)
  | doLaps (body : Stmt) (condition : Expr) (fuel : Nat)
  | forLaps (range : LoopRange) (counter : String) (body : Stmt) (count : Nat) (n : Int64)
  | call (name : String) (arguments : List Value) (position : Position)

/-- An activity in which calls nest less than `nesting` deep, and loops run less
than `laps` laps. -/
structure Task where
  nesting : Nat
  laps : Nat
  activity : Activity

namespace Task

/-- Runs a task, for what it does to the state. -/
def run (t : Task) : Eval Unit :=
  let call := Eval.call t.nesting
  match t.activity with
  | .value e => do let _ ← evaluate call t.laps e
  | .values es => do let _ ← evaluateAll call t.laps es
  | .option e => do let _ ← evaluateOption call t.laps e
  | .block body last => do let _ ← evaluateBlock call t.laps body last
  | .bounds position e => do let _ ← loopRange call t.laps position e
  | .step e => do let _ ← loopStep call t.laps e
  | .statement s => execute call t.laps s
  | .alternative s => executeOption call t.laps s
  | .body body => executeAll call t.laps body
  | .whileLaps condition body fuel =>
    whileLoop (Value.isTruthy <$> evaluate call t.laps condition) (execute call t.laps body) fuel
  | .doLaps body condition fuel =>
    doWhile (execute call t.laps body) (Value.isTruthy <$> evaluate call t.laps condition) fuel
  | .forLaps range counter body count n =>
    forLoop range counter (execute call t.laps body) count n
  | .call name arguments position => do let _ ← call name arguments position

end Task

/-- Enters a scope that is left behind the task started in it. -/
def enterScope : Eval Unit := modify Evaluation.enterScope

/-- Enters the scope and frame of a call. -/
def enterFrame : Eval Unit := modify Evaluation.enterFrame

/-- Puts the counter of a `for` in place, if there is none to use. -/
def enterFor (range : LoopRange) (counter : String) : Eval Unit := do
  unless reusesCounter (← get) counter do
    enterScope
    modifyEnvironment fun e => e.declare counter (.integer range.start) .int true

namespace Task

section

variable (nesting laps : Nat)

/-- Starts a task that runs as many laps and as deep as the one at hand. -/
def start (a : Activity) : Eval (Option Task) := return some ⟨nesting, laps, a⟩

def startIf (condition : Bool) (a : Activity) : Eval (Option Task) :=
  if condition then start nesting laps a else return none

/-- What is run behind a statement that set no signal. -/
def proceed (a : Activity) : Eval (Option Task) := do
  startIf nesting laps (!(← get).signals.any) a

/-- The body of a call, if the function exists and takes as many arguments. -/
def startBody (name : String) (arguments : List Value) (position : Position) :
    Eval (Option Task) := do
  match (← get).functions.find? name with
  | none => return none
  | some f =>
    if f.parameters.length = arguments.length then
      enterFrame
      bindParameters f.parameters arguments position
      start nesting nesting (.body f.body.body)
    else return none

end

/-- The tasks that a task starts, each behind what is done before it. Not every one
is started on every run. -/
@[simp] def starts : Task → List (Eval (Option Task))
  | ⟨n, laps, a⟩ =>
    let value := evaluate (Eval.call n) laps
    let execute := execute (Eval.call n) laps
    let start := start n laps
    let startIf := startIf n laps
    let proceed := proceed n laps
    match a with
    | .value e => match e with
      | .group inner _ => [start (.value inner)]
      | .binary _ left right _ => [start (.value left), do let _ ← value left; start (.value right)]
      | .unary _ operand _ => [start (.value operand)]
      | .call callee arguments span => [
        start (.values arguments),
        do start (.call callee (← evaluateAll (Eval.call n) laps arguments) span.start)]
      | .range first stop _ _ _ _ => [
        start (.value first),
        do let _ ← toBound (← value first) first.span.start; start (.value stop)]
      | .run ⟨body, _⟩ _ => [do enterScope; start (.block body (.integer 0))]
      | _ => []
    | .values [] => []
    | .values (e :: es) => [start (.value e), do let _ ← value e; start (.values es)]
    | .option none => []
    | .option (some e) => [start (.value e)]
    | .block [] _ => []
    | .block (.expression e :: rest) _ => [
      start (.value e),
      do let v ← value e; proceed (.block rest v)]
    | .block (s :: rest) _ => [
      start (.statement s),
      do execute s; proceed (.block rest (.integer 0))]
    | .bounds position e => match e with
      | .group inner _ => [start (.bounds position inner)]
      | .range first stop _ _ step _ => [
        start (.value first),
        do let _ ← toBound (← value first) first.span.start; start (.value stop),
        do
          let _ ← toBound (← value first) first.span.start
          let _ ← toBound (← value stop) stop.span.start
          start (.step step)]
      | _ => []
    | .step none => []
    | .step (some e) => [start (.value e)]
    | .statement s => match s with
      | .expression e => [start (.value e)]
      | .declare _ _ _ v _ => [start (.option v)]
      | .assign _ _ v _ => [start (.option v)]
      | .print v _ _ => [start (.option v)]
      | .return v _ => [start (.option v)]
      | .block ⟨body, _⟩ => [do enterScope; start (.body body)]
      | .branch condition thenBody elseBody _ => [
        start (.value condition),
        do
          if (← value condition).isTruthy then start (.statement thenBody)
          else start (.alternative elseBody)]
      | .whileLoop condition body _ => [start (.whileLaps condition body laps)]
      | .doWhile body condition _ => [start (.doLaps body condition laps)]
      | .forLoop counter range body _ => [
        start (.bounds range.span.start range),
        do
          let bounds ← loopRange (Eval.call n) laps range.span.start range
          enterFor bounds counter
          start (.forLaps bounds counter body bounds.count bounds.start)]
      | .function _ | .break _ | .continue _ => []
    | .alternative none => []
    | .alternative (some s) => [start (.statement s)]
    | .body [] => []
    | .body (s :: rest) => [start (.statement s), do execute s; proceed (.body rest)]
    | .whileLaps _ _ 0 => []
    | .whileLaps condition body (fuel + 1) => [
      start (.value condition),
      do
        if (← value condition).isTruthy then
          modifySignals .clearLoop
          start (.statement body)
        else return none,
      do
        if (← value condition).isTruthy then
          startIf (← lap (execute body)) (.whileLaps condition body fuel)
        else return none]
    | .doLaps _ _ 0 => []
    | .doLaps body condition (fuel + 1) => [
      do modifySignals .clearLoop; start (.statement body),
      do startIf (← lap (execute body)) (.value condition),
      do
        if ← lap (execute body) then
          startIf (← value condition).isTruthy (.doLaps body condition fuel)
        else return none]
    | .forLaps _ _ _ 0 _ => []
    | .forLaps range counter body (count + 1) m => [
      do
        setCounter counter m
        modifySignals .clearLoop
        start (.statement body),
      do
        setCounter counter m
        startIf (← lap (execute body)) (.forLaps range counter body count (range.next m))]
    | .call name arguments position => match n with
      | 0 => []
      | n + 1 => [startBody n name arguments position]

end Task

/-- In the run of a task from one state, the other task is run from the other state. -/
inductive Reaches (t : Task) (s : Evaluation) : Task → Evaluation → Prop where
  | self : Reaches t s t s
  | start {t₁ t₂ : Task} {s₁ s₂ : Evaluation} {x : Eval (Option Task)} :
    Reaches t s t₁ s₁ → x ∈ t₁.starts → x s₁ = .ok (some t₂) s₂ → Reaches t s t₂ s₂

/-- What a task reaches that the first starts, the first reaches. -/
theorem Reaches.behind {t t₁ t' : Task} {s s₁ s' : Evaluation} {x : Eval (Option Task)}
    (hx : x ∈ t.starts) (hs : x s = .ok (some t₁) s₁) (h : Reaches t₁ s₁ t' s') :
    Reaches t s t' s' := by
  induction h with
  | self => exact .start .self hx hs
  | start _ hy ho ih => exact ih.start hy ho

end Eval

/-! ## Programs -/

/-- The tasks that a run of a program starts, each behind what is done before it. -/
inductive Program.Starts (p : Program) (fuel : Nat) : Eval.Task → Evaluation → Prop where
  | topLevel {before rest : List Stmt} {b : Stmt} {s : Evaluation} :
    p.topLevel = before ++ b :: rest →
    (do Eval.registerAll p.functions; Eval.runTopLevel fuel before) .new = .ok () s →
    Starts p fuel ⟨fuel, fuel, .statement b⟩ s
  | main {s : Evaluation} :
    (do Eval.registerAll p.functions; Eval.runTopLevel fuel p.topLevel) .new = .ok () s →
    s.functions.contains "main" →
    Starts p fuel ⟨fuel, fuel, .call "main" [] p.span.start⟩ s

/-- The states a run comes through: what is run starts in one and ends in one, however
it ends, and so does the run. -/
inductive Program.Visits (p : Program) (fuel : Nat) : Evaluation → Prop where
  | start {t t' : Eval.Task} {s s' : Evaluation} :
    p.Starts fuel t s → Eval.Reaches t s t' s' → Visits p fuel s'
  | stop {t t' : Eval.Task} {s s' : Evaluation} :
    p.Starts fuel t s → Eval.Reaches t s t' s' → Visits p fuel (t'.run.after s')
  | finish : Visits p fuel ((Eval.run fuel p).after .new)

end ScriptLang
