/-!
# Paths

Paths as text, with `/` between components. Repeated and trailing separators count
for nothing, and so does a component `.` that is not the first.
-/

namespace ScriptLang.Path

/-- A reversed path without what counts for nothing at the end of the path. -/
def trimReversed : List Char → List Char
  | '/' :: cs => trimReversed cs
  | '.' :: '/' :: cs => trimReversed cs
  | cs => cs

/-- The path without what counts for nothing at its end. -/
def trimmed (p : List Char) : List Char := (trimReversed p.reverse).reverse

/-- The last component, empty for the root and the empty path. -/
def lastComponent (p : List Char) : List Char :=
  ((trimmed p).reverse.takeWhile (· ≠ '/')).reverse

/-- What stands before the last component, with its separator. -/
def beforeLast (p : List Char) : List Char :=
  ((trimmed p).reverse.dropWhile (· ≠ '/')).reverse

/-- The last component, if it is a name. -/
def fileName? (p : List Char) : Option (List Char) :=
  let last := lastComponent p
  if last = [] || last = ['.'] || last = ['.', '.'] then none else some last

/-- The path without its last component, none if it has no component. -/
def parent? (p : List Char) : Option (List Char) :=
  let before := beforeLast p
  if lastComponent p = [] then none
  else if before ≠ [] && trimmed before = [] then some ['/']
  else some (trimmed before)

/-- A name up to its last point. A point at the start begins no extension. -/
def stem (name : List Char) : List Char :=
  match (name.reverse.dropWhile (· ≠ '.')).tail.reverse with
  | [] => name
  | before => before

/-- What a name has behind its last point, nothing if no extension begins there. -/
def extension (name : List Char) : List Char := name.drop ((stem name).length + 1)

/-- The path with what follows the stem of its file name replaced by an extension,
or by nothing if that is empty. -/
def afterStem (p extension : List Char) : List Char :=
  match fileName? p with
  | none => p
  | some name => beforeLast p ++ stem name ++ if extension = [] then [] else '.' :: extension

/-- The path with another extension of its file name, or none if it is empty. The
path is first made shorter by the extension it has. Of a path such as `..x` this
leaves the directory above, which has no file name and takes no extension. -/
def withExtension (p new : List Char) : List Char :=
  let name := (fileName? p).getD []
  afterStem (p.take (p.length - (extension name).length)) new

/-- The components of a path, empty ones included. -/
def split : List Char → List (List Char)
  | [] => [[]]
  | c :: cs =>
    if c = '/' then [] :: split cs
    else match split cs with
      | [] => [[c]]
      | first :: rest => (c :: first) :: rest

/-- The path of the assembly of a source. -/
def assembly (source : String) : String :=
  String.ofList (withExtension source.toList ['s'])

/-- The components that count, from which equal paths are told. -/
def significant (p : List Char) : List (List Char) :=
  let absolute := p.head? = some '/'
  let components := split p
  match components with
  | [] => []
  | first :: rest =>
    (if absolute then [['/']] else if first = [] then [] else [first]) ++
      rest.filter fun c => c ≠ [] && c ≠ ['.']

/-- The path of the executable of an assembly: without its extension, or with
another one if it has none. -/
def executable (assembly : String) : String :=
  let bare := withExtension assembly.toList []
  String.ofList
    (if significant bare = significant assembly.toList then
      withExtension assembly.toList ['o', 'u', 't'] else bare)

/-- The name reports show for a source. -/
def display (source : String) : String :=
  match fileName? source.toList with
  | some name => String.ofList name
  | none => source

end ScriptLang.Path
