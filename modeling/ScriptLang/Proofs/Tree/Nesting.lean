import ScriptLang.Tree.Program

/-!
# Spans inside spans

The parts of a node stand inside its span, one behind the other as they are written, and
none of them is empty. A block is such a part of a function or of a `run`, and has parts
itself.
-/

namespace ScriptLang

/-- Between the offsets stand these spans, each behind the one before it, and none is empty. -/
def Ascends : Nat → List Span → Nat → Prop
  | low, [], high => low ≤ high
  | low, s :: ss, high =>
    low ≤ s.start.offset ∧ s.start.offset < s.stop.offset ∧ Ascends s.stop.offset ss high

section

variable {low high : Nat} {s : Span} {ss : List Span}

theorem ascends_cons : Ascends low (s :: ss) high ↔
    low ≤ s.start.offset ∧ s.start.offset < s.stop.offset ∧ Ascends s.stop.offset ss high := Iff.rfl

theorem Ascends.le (h : Ascends low ss high) : low ≤ high := by
  induction ss generalizing low with
  | nil => exact h
  | cons s ss ih =>
    obtain ⟨hlow, hs, h⟩ := h
    have hle := ih h
    omega

theorem Ascends.widen (h : Ascends low ss high) {low' high' : Nat} (hlow : low' ≤ low)
    (hhigh : high ≤ high') : Ascends low' ss high' := by
  induction ss generalizing low low' with
  | nil => exact Nat.le_trans hlow (Nat.le_trans h hhigh)
  | cons s ss ih =>
    obtain ⟨hstart, hs, h⟩ := h
    exact ⟨Nat.le_trans hlow hstart, hs, ih h (Nat.le_refl _)⟩

theorem Ascends.append {mid : Nat} {ts : List Span} (h : Ascends low ss mid)
    (h' : Ascends mid ts high) : Ascends low (ss ++ ts) high := by
  induction ss generalizing low with
  | nil => exact h'.widen h (Nat.le_refl _)
  | cons s ss ih =>
    obtain ⟨hlow, hs, h⟩ := h
    exact ⟨hlow, hs, ih h⟩

end

/-- The spans stand inside this one, one behind the other. -/
def Span.Holds (s : Span) (parts : List Span) : Prop :=
  Ascends s.start.offset parts s.stop.offset

/-- The statements of a block stand inside it, one behind the other. -/
def Block.Nests (b : Block) : Prop := b.span.Holds (b.body.map Stmt.span)

namespace Expr

/-- The spans of what an expression is made of, in source order. -/
def parts : Expr → List Span
  | .binary _ l r _ => [l.span, r.span]
  | .unary _ e _ | .group e _ => [e.span]
  | .call _ es _ => es.map Expr.span
  | .range a b _ _ c _ => a.span :: b.span :: (c.map Expr.span).toList
  | .run b _ => [b.span]
  | _ => []

/-- The block that an expression is made of. -/
def block? : Expr → Option Block
  | .run b _ => some b
  | _ => none

/-- The expression is not empty, and its parts stand inside it, one behind the other. -/
structure Nests (e : Expr) : Prop where
  pos : e.span.start.offset < e.span.stop.offset
  parts : e.span.Holds e.parts
  block : ∀ b ∈ e.block?, b.Nests

end Expr

namespace Stmt

/-- The spans of what a statement is made of, in source order. -/
def parts : Stmt → List Span
  | .declare _ _ _ v _ | .assign _ _ v _ | .print v _ _ | .return v _ =>
    (v.map Expr.span).toList
  | .block b => b.body.map Stmt.span
  | .branch c a b _ => c.span :: a.span :: (b.map Stmt.span).toList
  | .whileLoop c b _ => [c.span, b.span]
  | .doWhile b c _ => [b.span, c.span]
  | .forLoop _ r b _ => [r.span, b.span]
  | .function f => [f.body.span]
  | .break _ | .continue _ => []
  | .expression e => [e.span]

/-- The block that a function is made of. -/
def block? : Stmt → Option Block
  | .function f => some f.body
  | _ => none

/-- The statement is not empty, and its parts stand inside it, one behind the other. -/
structure Nests (s : Stmt) : Prop where
  pos : s.span.start.offset < s.span.stop.offset
  parts : s.span.Holds s.parts
  block : ∀ b ∈ s.block?, b.Nests

end Stmt

end ScriptLang
