import ScriptLang.Assembly.Operand
import ScriptLang.NameMap
import ScriptLang.Tree.Types

/-!
# Frames

Where compiled code keeps values: in cells of the data section, or in slots below
the frame pointer. Slots are handed out downwards and never twice, so none is
overwritten through another.
-/

namespace ScriptLang

open Assembly (Memory)

inductive Location where
  /-- Bytes from the frame pointer. -/
  | frame (offset : Int)
  | cell (name : String)
  deriving DecidableEq

structure Slot where
  location : Location
  type : ValueType
  mutable : Bool
  deriving DecidableEq

/-- The memory some bytes into a slot. -/
def Slot.part (s : Slot) (bytes : Nat) : Memory :=
  match s.location with
  | .frame offset => .frame (offset + bytes)
  | .cell name => .data (.cell name) bytes

/-- The first eight bytes of a slot. -/
def Slot.low (s : Slot) : Memory := s.part 0

/-- The second eight bytes of a slot, which only ranges have. -/
def Slot.high (s : Slot) : Memory := s.part 8

/-- The bytes a value takes; a range has two bounds. -/
def ValueType.size : ValueType → Nat
  | .range => 16
  | _ => 8

structure Frame where
  /-- Innermost first. -/
  scopes : List (NameMap Slot)
  /-- Bytes handed out. -/
  used : Int

namespace Frame

/-- One scope, and nothing handed out. -/
def new : Frame := ⟨[.empty], 0⟩

def depth (f : Frame) : Nat := f.scopes.length

def push (f : Frame) : Frame := { f with scopes := .empty :: f.scopes }

/-- Leaves the innermost scope, unless it is the outermost. Its slots stay taken. -/
def pop (f : Frame) : Frame :=
  match f.scopes with
  | _ :: outer :: rest => { f with scopes := outer :: rest }
  | _ => f

/-- The offset of the next slot of a given size. -/
def offset (f : Frame) (size : Int) : Int := -(f.used + size)

/-- Hands out bytes, or takes some back if their number is negative. -/
def alloc (f : Frame) (size : Int) : Frame := { f with used := f.used + size }

/-- The slot that is handed out next for a value. -/
def fresh (f : Frame) (type : ValueType) (mutable : Bool) : Slot :=
  ⟨.frame (f.offset type.size), type, mutable⟩

/-- Makes a name mean a slot in the innermost scope. -/
def bind (f : Frame) (name : String) (s : Slot) : Frame :=
  match f.scopes with
  | inner :: outer => { f with scopes := inner.insert name s :: outer }
  | [] => f

/-- A slot without a name. -/
def temporary (f : Frame) (type : ValueType) : Slot × Frame :=
  (f.fresh type true, f.alloc type.size)

/-- A slot with a name, in the innermost scope. -/
def declare (f : Frame) (name : String) (type : ValueType) (mutable : Bool) : Slot × Frame :=
  (f.fresh type mutable, (f.alloc type.size).bind name (f.fresh type mutable))

/-- What a name means in the innermost of the scopes that bind it. -/
def find? (f : Frame) (name : String) : Option Slot := f.scopes.findSome? (·.find? name)

/-- The size of the frame, a multiple of 16 that covers what was handed out. The
division is toward zero. -/
def size (f : Frame) : Int := (f.used + 15).tdiv 16 * 16

end Frame

end ScriptLang
