/-!
# Positions and spans

A position is a byte offset into the UTF-8 text of a named source. A span runs
from its first byte to the byte after its last one.
-/

namespace ScriptLang

structure Position where
  offset : Nat
  file : String
  deriving DecidableEq, Inhabited

structure Span where
  start : Position
  stop : Position
  deriving DecidableEq, Inhabited

namespace Position

/-- The start of a source. -/
def origin (file : String) : Position := ⟨0, file⟩

/-- The position as messages show it. -/
def describe (p : Position) : String := s!"{p.file}:{p.offset}"

end Position

/-- The number of bytes of a text in UTF-8. -/
def byteLength : List Char → Nat
  | [] => 0
  | c :: cs => c.utf8Size + byteLength cs

@[simp] theorem byteLength_nil : byteLength [] = 0 := rfl

@[simp] theorem byteLength_cons (c : Char) (cs : List Char) :
    byteLength (c :: cs) = c.utf8Size + byteLength cs := rfl

@[simp] theorem byteLength_append (cs ds : List Char) :
    byteLength (cs ++ ds) = byteLength cs + byteLength ds := by
  induction cs with
  | nil => simp
  | cons c cs ih => simp [ih, Nat.add_assoc]

end ScriptLang
