import ScriptLang.CommandLine.Command

/-!
# The program

Runs commands on the files of the operating system. Other programs cannot be
started from here, so linking is refused behind a written assembly.
-/

namespace ScriptLang

/-- The reason an operation failed for. -/
def hostErrorOf (e : IO.Error) : HostError :=
  match e with
  | .noFileOrDirectory .. => .notFound
  | .alreadyExists .. => .exists
  | .inappropriateType _ code _ => if code = 20 then .notDirectory else .isDirectory
  | .invalidArgument _ 36 _ => .nameTooLong
  | .permissionDenied .. => .other "Permission denied (os error 13)"
  | e => .other e.toString

/-- The result of an operation, or why it failed. -/
def attempted {α : Type} (action : IO α) : IO (Except HostError α) := do
  try return .ok (← action) catch e => return .error (hostErrorOf e)

/-- Nanoseconds in the largest unit of which there is one. -/
def describeNanoseconds (n : Nat) : String :=
  if n < 1000 then s!"{n}ns"
  else if n < 1000000 then s!"{n / 1000}µs"
  else if n < 1000000000 then s!"{n / 1000000}ms"
  else s!"{n / 1000000000}s"

/-- The operating system as a host. -/
def systemHost : Host IO where
  readFile path := do
    match ← attempted (IO.FS.readBinFile path) with
    | .error e => return .error e
    | .ok bytes => match String.fromUTF8? bytes with
      | some text => return .ok text
      | none => return .error .invalidText
  createDirectories path := attempted (IO.FS.createDirAll path)
  writeFile path text := attempted (IO.FS.writeFile path text)
  link _ _ := return .error (.other "Function not implemented (os error 38)")
  printOutput text := IO.print text
  printError text := IO.eprint text
  clock := IO.monoNanosNow
  describeTime := describeNanoseconds

end ScriptLang

def main (arguments : List String) : IO UInt32 := do
  let status ← ScriptLang.executeArguments ScriptLang.systemHost arguments
  return UInt32.ofNat status.code
