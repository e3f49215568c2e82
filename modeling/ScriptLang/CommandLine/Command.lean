import ScriptLang.Codegen.Program
import ScriptLang.CommandLine.Host
import ScriptLang.CommandLine.Options
import ScriptLang.CommandLine.Path
import ScriptLang.Evaluation.Call
import ScriptLang.Report

/-!
# The commands

`run` evaluates a program and prints what it prints; `build` writes its assembly
and may link it. Problems go to the error channel as reports. A file is written
only when its whole content is known.
-/

namespace ScriptLang

inductive ExitStatus where
  | success | failure | usage
  deriving DecidableEq

def ExitStatus.code : ExitStatus → Nat
  | success => 0
  | failure => 1
  | usage => 2

namespace Command

variable {m : Type → Type} [Monad m] (host : Host m)

/-- Ends with a message, the failure of a step and its reason. -/
def failStep (step : String) (e : HostError) : m ExitStatus := do
  host.printError s!"error: {step}: {e.text}\n"
  return .failure

/-- Reports why a computation on a source halted. -/
def reportHalt (source file : String) (halt : Halt) : m Unit :=
  host.printError (match halt with
    | .fault f => f.report source file
    | .outOfFuel => "error: the program does not come to an end\n")

/-- Reports diagnostics in order. -/
def reportAll (source file : String) (fs : List Fault) : m Unit :=
  host.printError (String.join (fs.map fun f => f.report source file))

/-- Reports the time a phase took since `start`. -/
def reportTime (timings : Bool) (phase : String) (start : Nat) : m Unit := do
  if timings then
    let now ← host.clock
    host.printError s!"{phase} {host.describeTime (now - start)}\n"

/-- Evaluates a program that was read. -/
def runText (timings : Bool) (source file : String) : m ExitStatus := do
  let start ← host.clock
  match Program.ofSource source file with
  | .error halt =>
    reportHalt host source file halt
    return .failure
  | .ok p =>
    reportTime host timings "Parsed in" start
    let start ← host.clock
    let result := p.run ampleFuel
    let state := match result with
      | .ok _ s | .error _ s => s
    host.printOutput state.output
    reportTime host timings "Ran in" start
    match result with
    | .ok _ s =>
      reportAll host source file s.diagnostics
      return .success
    | .error halt _ =>
      reportHalt host source file halt
      return .failure

/-- Makes an executable of an assembly. -/
def linkAssembly (timings : Bool) (compiler output : String) : m (Option ExitStatus) := do
  let start ← host.clock
  match ← host.link compiler ["-o", Path.executable output, output, "-lm"] with
  | .error e => return some (← failStep host s!"failed to run {compiler}" e)
  | .ok r =>
    if r.success then
      reportTime host timings "Linked in" start
      return none
    else
      host.printError s!"error: {compiler} failed to link {output}:\n{r.errors}\n"
      return some .failure

/-- Writes an assembly, in directories made for it if need be. -/
def writeAssembly (output text : String) : m (Option ExitStatus) := do
  let parent := String.ofList ((Path.parent? output.toList).getD [])
  match ← (if parent.isEmpty then pure (.ok ()) else host.createDirectories parent) with
  | .error e => return some (← failStep host s!"failed to create directory {parent}" e)
  | .ok _ => match ← host.writeFile output text with
    | .error e => return some (← failStep host s!"failed to write assembly to {output}" e)
    | .ok _ => return none

/-- Compiles a program that was read, writes the assembly and perhaps links it. -/
def buildText (timings : Bool) (options : BuildOptions) (path source file : String) :
    m ExitStatus := do
  let start ← host.clock
  match Program.ofSource source file with
  | .error halt =>
    reportHalt host source file halt
    return .failure
  | .ok p =>
    reportTime host timings "Parsed in" start
    match p.compile with
    | .error f =>
      reportHalt host source file (.fault f)
      return .failure
    | .ok compiled =>
      reportTime host timings "Generated in" start
      reportAll host source file compiled.diagnostics
      let output := options.output.getD (Path.assembly path)
      if let some status ← writeAssembly host output compiled.listing.text then return status
      if options.link then
        if let some status ← linkAssembly host timings options.compiler output then
          return status
      reportTime host timings "Total time:" start
      return .success

def execute (c : Command) : m ExitStatus := do
  match ← host.readFile c.file with
  | .error e => failStep host s!"failed to read source file {c.file}" e
  | .ok source =>
    let file := Path.display c.file
    match c.action with
    | .run => runText host c.timings source file
    | .build options => buildText host c.timings options c.file source file

end Command

/-- How the command is used. -/
def usageText : String :=
  "Usage: [--timings] run FILE\n       [--timings] build FILE [-o OUT] [--link] [--cc CC]\n"

/-- Does what the arguments ask for. -/
def executeArguments {m : Type → Type} [Monad m] (host : Host m) (arguments : List String) :
    m ExitStatus := do
  match Request.ofArguments arguments with
  | .command c => c.execute host
  | .help =>
    host.printOutput usageText
    return .success
  | .invalid =>
    host.printError usageText
    return .usage

end ScriptLang
