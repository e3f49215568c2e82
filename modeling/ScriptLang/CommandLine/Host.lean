/-!
# What a command needs of its host

Files, output channels, a linker and a clock. A command is written against these
operations, so that it is the same on an operating system and on a tree of files
in memory.
-/

namespace ScriptLang

/-- Why an operation on files or programs failed. -/
inductive HostError where
  | notFound
  | exists
  | notDirectory
  | isDirectory
  | nameTooLong
  | invalidText
  | other (text : String)
  deriving DecidableEq

def HostError.text : HostError → String
  | notFound => "No such file or directory (os error 2)"
  | «exists» => "File exists (os error 17)"
  | notDirectory => "Not a directory (os error 20)"
  | isDirectory => "Is a directory (os error 21)"
  | nameTooLong => "File name too long (os error 36)"
  | invalidText => "stream did not contain valid UTF-8"
  | other t => t

/-- How a linker ended, and what it wrote to its error stream. -/
structure LinkResult where
  success : Bool
  errors : String

structure Host (m : Type → Type) where
  readFile : (path : String) → m (Except HostError String)
  /-- Makes a directory and those above it, where they are missing. -/
  createDirectories : (path : String) → m (Except HostError Unit)
  writeFile : (path text : String) → m (Except HostError Unit)
  link : (compiler : String) → (arguments : List String) → m (Except HostError LinkResult)
  printOutput : String → m Unit
  printError : String → m Unit
  /-- Nanoseconds since some time. -/
  clock : m Nat
  /-- The text of a number of nanoseconds. -/
  describeTime : Nat → String

end ScriptLang
