import ScriptLang.Source.Position

/-!
# Lines of a source

A source is cut after each newline, so every piece but the last ends in one and
no character is lost. An offset belongs to the piece that holds its byte; the
offset at the very end belongs to the last piece.
-/

namespace ScriptLang

/-- The pieces of a text, each up to and with its newline. -/
def pieces : List Char → List (List Char)
  | [] => []
  | c :: cs =>
    if c = '\n' then [c] :: pieces cs
    else match pieces cs with
      | [] => [[c]]
      | p :: ps => (c :: p) :: ps

theorem flatten_pieces (cs : List Char) : (pieces cs).flatten = cs := by
  induction cs with
  | nil => rfl
  | cons c cs ih =>
    unfold pieces
    split
    · simp [ih]
    · split <;> simp_all

/-- A line of a source and a place in it. -/
structure LineView where
  /-- Counted from one. -/
  number : Nat
  /-- The text of the line, with its newline if it has one. -/
  text : List Char
  /-- Bytes of the line before the place. -/
  column : Nat
  deriving DecidableEq

/-- Looks for `offset`, counted from the start of the first piece, in pieces
of which the first has number `number`. -/
def lineAmong (offset number : Nat) : List (List Char) → Option LineView
  | [] => none
  | p :: ps =>
    if offset < byteLength p then some ⟨number, p, offset⟩
    else lineAmong (offset - byteLength p) (number + 1) ps

/-- The line that holds the byte at `offset`; none past the end. -/
def lineAt? (source : List Char) (offset : Nat) : Option LineView :=
  let ps := pieces source
  if byteLength source < offset then none
  else if offset = byteLength source then
    let last := ps.getLastD []
    some ⟨max ps.length 1, last, byteLength last⟩
  else lineAmong offset 1 ps

end ScriptLang
