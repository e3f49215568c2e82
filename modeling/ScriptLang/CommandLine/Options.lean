/-!
# Arguments of the command

A command is `run FILE` or `build FILE` with options. Options and the file may
come in any order, each at most once; `--` ends the options. The option for timings
may also stand before the command.
-/

namespace ScriptLang

structure BuildOptions where
  /-- Where the assembly goes, if not beside the source. -/
  output : Option String
  link : Bool
  /-- The compiler that links. -/
  compiler : String
  deriving DecidableEq

inductive Action where
  | run
  | build (options : BuildOptions)
  deriving DecidableEq

structure Command where
  action : Action
  file : String
  timings : Bool
  deriving DecidableEq

/-- What arguments can ask for. -/
inductive Request where
  | command (command : Command)
  /-- A description of the command. -/
  | help
  /-- Nothing that makes sense. -/
  | invalid
  deriving DecidableEq

namespace Request

/-- What has been read of a command. -/
structure Gathered where
  file : Option String
  output : Option String
  link : Bool
  compiler : Option String
  timings : Bool

namespace Gathered

def empty : Gathered := ⟨none, none, false, none, false⟩

/-- Paths are not empty, and a file is given once. -/
def withFile? (g : Gathered) (v : String) : Option Gathered :=
  if g.file.isSome || v.isEmpty then none else some { g with file := some v }

def withOutput? (g : Gathered) (v : String) : Option Gathered :=
  if g.output.isSome || v.isEmpty then none else some { g with output := some v }

def withCompiler? (g : Gathered) (v : String) : Option Gathered :=
  if g.compiler.isSome then none else some { g with compiler := some v }

def withLink? (g : Gathered) : Option Gathered :=
  if g.link then none else some { g with link := true }

def withTimings? (g : Gathered) : Option Gathered :=
  if g.timings then none else some { g with timings := true }

/-- The command read, if its file was given. -/
def finish (building timings : Bool) (g : Gathered) : Request :=
  match g.file with
  | none => .invalid
  | some file =>
    let action : Action :=
      if building then .build ⟨g.output, g.link, g.compiler.getD "cc"⟩ else .run
    .command ⟨action, file, timings || g.timings⟩

end Gathered

/-- Whether an argument is an option; a lone dash is not. -/
def isOption (a : List Char) : Bool := a.head? = some '-' && a ≠ ['-']

/-- Whether an argument begins with a short option. -/
def short (a : String) (option : Char) : Bool := a.toList.take 2 = ['-', option]

/-- An argument `name=value`, cut at the first equals sign. -/
def cut (a : List Char) : List Char × Option (List Char) :=
  match a.dropWhile (· ≠ '=') with
  | [] => (a, none)
  | _ :: value => (a.takeWhile (· ≠ '='), some value)

/-- An option that takes a value, with the value attached to it if there is one. -/
inductive Valued where
  | output (attached : Option String)
  | compiler (attached : Option String)

/-- Reads an argument as an option with a value. In the short form the value
follows at once, perhaps behind an equals sign. -/
def valued? (a : List Char) : Option Valued :=
  let (name, value) := cut a
  let text := value.map String.ofList
  if name = "--output".toList then some (.output text)
  else if name = "--cc".toList then some (.compiler text)
  else match a with
    | ['-', 'o'] => some (.output none)
    | '-' :: 'o' :: '=' :: v => some (.output (some (String.ofList v)))
    | '-' :: 'o' :: v => some (.output (some (String.ofList v)))
    | _ => none

def Valued.addTo? (o : Valued) (v : String) (g : Gathered) : Option Gathered :=
  match o with
  | .output _ => g.withOutput? v
  | .compiler _ => g.withCompiler? v

def Valued.attached : Valued → Option String
  | .output v | .compiler v => v

/-- Reads what follows the name of a command, behind `--` only files. -/
def parseRest (building timings : Bool) : Gathered → List String → Request
  | g, [] => g.finish building timings
  | g, a :: rest =>
    let cs := a.toList
    let continueWith (q : Option Gathered) : Request :=
      match q with
      | some q => parseRest building timings q rest
      | none => .invalid
    if a = "--" then
      match rest with
      | [] => g.finish building timings
      | [v] => match g.withFile? v with
        | some q => q.finish building timings
        | none => .invalid
      | _ => .invalid
    else if !isOption cs then continueWith (g.withFile? a)
    else if a = "--help" || short a 'h' then .help
    else if a = "--timings" then continueWith g.withTimings?
    else if !building then .invalid
    else if a = "--link" then continueWith g.withLink?
    else match valued? cs with
      | none => .invalid
      | some o => match o.attached, rest with
        | some v, _ => continueWith (o.addTo? v g)
        | none, v :: others =>
          if isOption v.toList then .invalid
          else match o.addTo? v g with
            | some q => parseRest building timings q others
            | none => .invalid
        | none, [] => .invalid

/-- Reads the arguments of the program. -/
def parse : (timings : Bool) → List String → Request
  | _, [] => .invalid
  | timings, a :: rest =>
    if a = "run" then parseRest false timings .empty rest
    else if a = "build" then parseRest true timings .empty rest
    else if a = "help" then
      if rest = [] || rest = ["run"] || rest = ["build"] || rest = ["help"] then .help
      else .invalid
    else if a = "--help" || a = "--version" || short a 'h' || short a 'V' then .help
    else if a = "--timings" && !timings then parse true rest
    else .invalid

/-- What the arguments of the program ask for. -/
def ofArguments (arguments : List String) : Request := parse false arguments

end Request

end ScriptLang
