import ScriptLang.Assembly.Instruction
import ScriptLang.Assembly.StringLiteral
import ScriptLang.Number.Shortest

/-!
# Listings

A listing is data, functions, and the handlers of traps. It becomes text only as
a whole, and its text is all that the assembler sees.
-/

namespace ScriptLang.Assembly

/-- Labelled data. -/
inductive Datum where
  /-- Quadwords of zero. -/
  | quads (label : Label) (count : Nat)
  | string (label : Label) (text : String)
  /-- A float, by its bits. -/
  | float (label : Label) (bits : UInt64)

namespace Datum

def label : Datum → Label
  | quads l _ | string l _ | float l _ => l

/-- Bits in 16 hexadecimal digits. -/
def bitsText (bits : UInt64) : String :=
  let digits := Nat.toDigits 16 bits.toNat
  String.ofList (List.replicate (16 - digits.length) '0' ++ digits)

/-- Zeros with commas between. -/
def zeros (count : Nat) : String := ", ".intercalate (List.replicate count "0")

def text : Datum → String
  | quads l n => s!"{l.text}:\n    .quad {zeros n}\n"
  | string l s => s!"{l.text}:\n    .string \"{stringLiteral s}\"\n"
  | float l bits =>
    let value := Number.decimal "inf" (Float.ofBits bits)
    s!"{l.text}:\n    .quad 0x{bitsText bits} # {value}\n"

end Datum

/-- A function, with its body between prologue and epilogue. -/
structure Routine where
  symbol : String
  /-- The bytes its slots need. -/
  frameSize : Int
  body : List Instruction

namespace Routine

def prologue (r : Routine) : List Instruction :=
  [.label (.symbol r.symbol), .push (.register .rbp), .move (.register .rsp) (.register .rbp)] ++
    if 0 < r.frameSize then [.integer .subtract (.immediate r.frameSize) .rsp] else []

def epilogue (r : Routine) : List Instruction :=
  [.label (.epilogue r.symbol), .leave, .return]

def code (r : Routine) : List Instruction := r.prologue ++ r.body ++ r.epilogue

def text (r : Routine) : String :=
  s!"    .globl {r.symbol}\n    .type {r.symbol}, @function\n{Instruction.lines r.code}\n"

end Routine

/-- Prints the message of a trap to the error stream and exits with status 1. -/
def Trap.handler (t : Trap) : List Instruction :=
  [.label (.trap t),
   .move (.memory (.imported "stderr")) (.register .rax),
   .move (.memory (.pointedBy .rax)) (.register .rdi),
   .address (.trapMessage t) .rsi,
   .clear .rax,
   .callLibrary .fprintf,
   .moveLong 1 .rdi,
   .callLibrary .exit]

structure Listing where
  /-- The size in quadwords of each global cell, by name. -/
  cells : List (String × Nat)
  strings : List String
  /-- The bits of each float constant. -/
  floats : List UInt64
  routines : List Routine

namespace Listing

/-- The labels of a pool's entries, in order. -/
def pool {α : Type} (label : Nat → Label) (datum : Label → α → Datum) (entries : List α) :
    List Datum :=
  entries.mapIdx fun i a => datum (label i) a

def data (l : Listing) : List Datum := l.cells.map fun (name, n) => .quads (.cell name) n

/-- The constants that every listing has. -/
def commonConstants : List Datum :=
  (Format.all.flatMap fun f =>
    [.string (.format f false) f.directive, .string (.format f true) (f.directive ++ "\n")]) ++
  [.string .newline "\n", .string (.truth true) "true", .string (.truth false) "false"] ++
  Trap.all.map fun t => .string (.trapMessage t) (t.message ++ "\n")

def floatConstants (l : Listing) : List Datum := pool .float .float l.floats

def constants (l : Listing) : List Datum := commonConstants ++ pool .string .string l.strings

def texts (ds : List Datum) : String := String.join (ds.map Datum.text)

def text (l : Listing) : String :=
  "    .data\n" ++ texts l.data ++
  "\n    .section .rodata\n" ++ texts l.constants ++
  (if l.floats.isEmpty then "" else "    .align 8\n") ++ texts l.floatConstants ++
  "\n    .text\n" ++ String.join (l.routines.map Routine.text) ++
  Instruction.lines (Trap.all.flatMap Trap.handler) ++
  "\n    .section .note.GNU-stack,\"\",@progbits\n"

end Listing

end ScriptLang.Assembly
