import ScriptLang.CommandLine.Host
import ScriptLang.CommandLine.Path

/-!
# Files in memory

A tree of files and directories, which commands can run on. One directory is the
working directory, where paths start that do not start at the top of the tree.
Components lead through directories only; the directory above the top is the top.
-/

namespace ScriptLang

inductive Entry where
  | file (bytes : ByteArray)
  | directory

/-- Names from the top of the tree, first to last. -/
abbrev Place := List (List Char)

structure Disk where
  entries : List (Place × Entry)
  /-- The working directory. -/
  working : Place

namespace Disk

/-- What is at a place. The top is always a directory. -/
def entry? (d : Disk) (place : Place) : Option Entry :=
  if place = [] then some .directory else d.entries.lookup place

/-- Puts an entry at a place, in place of what is there. -/
def put (d : Disk) (place : Place) (e : Entry) : Disk :=
  { d with entries := (d.entries.filter fun p => p.1 ≠ place) ++ [(place, e)] }

/-- Makes sure that something is at each of the places a place is in. -/
def withParents (d : Disk) (place : Place) : Disk :=
  ((List.range place.length).map place.take).foldl
    (fun d p => if (d.entry? p).isSome then d else d.put p .directory) d

/-- An empty working directory, and the directories it is in. -/
def emptyAt (working : Place) : Disk :=
  (withParents ⟨[], working⟩ working).put working .directory

/-- Where a path starts. -/
def origin (d : Disk) (path : List Char) : Place :=
  if path.head? = some '/' then [] else d.working

/-- Where one component leads from a place. -/
def follow (place : Place) (component : List Char) : Place :=
  if component = [] || component = ['.'] then place
  else if component = ['.', '.'] then place.dropLast
  else place ++ [component]

/-- Puts a file where its path says, and the directories it is in. -/
def addFile (d : Disk) (path : List Char) (bytes : ByteArray) : Disk :=
  let place := (Path.split path).foldl follow (d.origin path)
  (d.withParents place).put place (.file bytes)

/-- The files in and below the working directory, by their names from there. -/
def workingFiles (d : Disk) : List (Place × ByteArray) :=
  d.entries.filterMap fun (place, e) =>
    match e with
    | .file bytes =>
      if d.working.isPrefixOf place then some (place.drop d.working.length, bytes) else none
    | .directory => none

/-- That a place is a directory. -/
def checkDirectory (d : Disk) (place : Place) : Except HostError Unit :=
  match d.entry? place with
  | none => .error .notFound
  | some (.file _) => .error .notDirectory
  | some .directory => .ok ()

/-- The number of bytes of a text. -/
def bytesIn (text : List Char) : Nat := (String.ofList text).utf8ByteSize

/-- That a name can be that of an entry. -/
def checkName (name : List Char) : Except HostError Unit :=
  if bytesIn name ≤ 255 then .ok () else .error .nameTooLong

/-- That a path can be followed at all. The empty path leads nowhere. -/
def checkPath (path : List Char) : Except HostError Unit :=
  if path = [] then .error .notFound
  else if bytesIn path < 4096 then .ok ()
  else .error .nameTooLong

/-- Follows components from a place; each must be met in a directory. -/
def walk (d : Disk) : Place → List (List Char) → Except HostError Place
  | place, [] => .ok place
  | place, c :: cs => do
    d.checkDirectory place
    checkName c
    walk d (follow place c) cs

/-- The place a path leads to, where there need be nothing. -/
def locate (d : Disk) (path : List Char) : Except HostError Place := do
  checkPath path
  d.walk (d.origin path) (Path.split path)

def isDirectory (d : Disk) (path : List Char) : Bool :=
  match d.locate path with
  | .ok place => (d.checkDirectory place).isOk
  | .error _ => false

/-- The text of a file. -/
def read (d : Disk) (path : List Char) : Except HostError String := do
  match d.entry? (← d.locate path) with
  | none => .error .notFound
  | some .directory => .error .isDirectory
  | some (.file bytes) => match String.fromUTF8? bytes with
    | some text => .ok text
    | none => .error .invalidText

/-- The path without separators at its end. -/
def withoutSlashes (path : List Char) : List Char :=
  (path.reverse.dropWhile (· = '/')).reverse

/-- Makes one directory. -/
def createDirectory (d : Disk) (path : List Char) : Except HostError Disk := do
  let place ← d.locate (if path.all (· = '/') then path else withoutSlashes path)
  match d.entry? place with
  | some _ => .error .exists
  | none =>
    d.checkDirectory place.dropLast
    .ok (d.put place .directory)

/-- Makes a directory, and first those above it that are missing. `depth` bounds
their number. The tree keeps what was made before an error. -/
def createDirectories (depth : Nat) (d : Disk) (path : List Char) : Except HostError Unit × Disk :=
  match depth with
  | 0 => (.error .notFound, d)
  | depth + 1 =>
    if path = [] then (.ok (), d)
    else
      let settle (d : Disk) (e : HostError) : Except HostError Unit × Disk :=
        if d.isDirectory path then (.ok (), d) else (.error e, d)
      match d.createDirectory path with
      | .ok d => (.ok (), d)
      | .error .notFound =>
        match Path.parent? path with
        | none => (.error .notFound, d)
        | some parent => match createDirectories depth d parent with
          | (.error e, d) => (.error e, d)
          | (.ok _, d) => match d.createDirectory path with
            | .ok d => (.ok (), d)
            | .error e => settle d e
      | .error e => settle d e

/-- Writes a file. A path that ends like a directory's names no file. -/
def write (d : Disk) (path : List Char) (bytes : ByteArray) : Except HostError Disk := do
  checkPath path
  let components := Path.split (withoutSlashes path)
  let directory ← d.walk (d.origin path) components.dropLast
  d.checkDirectory directory
  let name := components.getLastD []
  if path.getLast? = some '/' || name = ['.'] || name = ['.', '.'] then .error .isDirectory
  else
    checkName name
    match d.entry? (directory ++ [name]) with
    | some .directory => .error .isDirectory
    | _ => .ok (d.put (directory ++ [name]) (.file bytes))

end Disk

/-- A disk and the channels of a command. -/
structure Desk where
  disk : Disk
  output : String
  errors : String

/-- The linkers there are: by name, what each answers. -/
abbrev Linkers := List (String × LinkResult)

/-- A host on a disk. Time does not pass, and linkers write no file. -/
def Desk.host (linkers : Linkers) (time : String) : Host (StateM Desk) where
  readFile path := do return (← get).disk.read path.toList
  createDirectories path := do
    let (result, disk) := Disk.createDirectories (path.length + 1) (← get).disk path.toList
    modify fun w => { w with disk := disk }
    return result
  writeFile path text := do
    match (← get).disk.write path.toList text.toUTF8 with
    | .ok disk =>
      modify fun w => { w with disk := disk }
      return .ok ()
    | .error e => return .error e
  link compiler _ := do
    match linkers.lookup compiler with
    | some result => return .ok result
    | none => return .error .notFound
  printOutput text := modify fun w => { w with output := w.output ++ text }
  printError text := modify fun w => { w with errors := w.errors ++ text }
  clock := return 0
  describeTime _ := time

end ScriptLang
