import ScriptLang.Token
import ScriptLang.Tree.Program

/-!
# Trees at other places

What was read at one place of a source can stand at another one. A map of positions moves
every span of a tree along.
-/

namespace ScriptLang

namespace Position

/-- The position so many bytes further on. -/
def shift (k : Nat) (p : Position) : Position := ⟨k + p.offset, p.file⟩

/-- The position so many bytes further to the front. -/
def unshift (k : Nat) (p : Position) : Position := ⟨p.offset - k, p.file⟩

@[simp] theorem unshift_shift (k : Nat) (p : Position) : (p.shift k).unshift k = p :=
  congrArg (Position.mk · p.file) (Nat.add_sub_cancel_left k p.offset)

end Position

def Span.move (f : Position → Position) (s : Span) : Span := ⟨f s.start, f s.stop⟩

def Token.move (f : Position → Position) (t : Token) : Token := { t with span := t.span.move f }

/-- Tokens that were moved on and back are where they were. -/
theorem Token.map_unshift (k : Nat) (own : List Token) :
    (own.map (Token.move (.shift k))).map (Token.move (.unshift k)) = own := by
  rw [List.map_map]
  refine List.map_id'' (fun t => ?_) own
  simp [Token.move, Span.move]

mutual

/-- The expression with its spans moved. -/
@[simp] def Expr.move (f : Position → Position) : Expr → Expr
  | .integer n s => .integer n (s.move f)
  | .float x s => .float x (s.move f)
  | .boolean b s => .boolean b (s.move f)
  | .string t s => .string t (s.move f)
  | .name n s => .name n (s.move f)
  | .binary o l r s => .binary o (Expr.move f l) (Expr.move f r) (s.move f)
  | .unary o e s => .unary o (Expr.move f e) (s.move f)
  | .group e s => .group (Expr.move f e) (s.move f)
  | .call n es s => .call n (Expr.moveList f es) (s.move f)
  | .range a b x d c s =>
    .range (Expr.move f a) (Expr.move f b) x d (Expr.moveOption f c) (s.move f)
  | .run ⟨body, t⟩ s => .run ⟨Stmt.moveList f body, t.move f⟩ (s.move f)

@[simp] def Expr.moveList (f : Position → Position) : List Expr → List Expr
  | [] => []
  | e :: es => Expr.move f e :: Expr.moveList f es

@[simp] def Expr.moveOption (f : Position → Position) : Option Expr → Option Expr
  | none => none
  | some e => some (Expr.move f e)

@[simp] def Stmt.move (f : Position → Position) : Stmt → Stmt
  | .declare n c t v s => .declare n c t (Expr.moveOption f v) (s.move f)
  | .assign n o v s => .assign n o (Expr.moveOption f v) (s.move f)
  | .print v l s => .print (Expr.moveOption f v) l (s.move f)
  | .block ⟨body, t⟩ => .block ⟨Stmt.moveList f body, t.move f⟩
  | .branch c a b s => .branch (Expr.move f c) (Stmt.move f a) (Stmt.moveOption f b) (s.move f)
  | .whileLoop c b s => .whileLoop (Expr.move f c) (Stmt.move f b) (s.move f)
  | .doWhile b c s => .doWhile (Stmt.move f b) (Expr.move f c) (s.move f)
  | .forLoop n r b s => .forLoop n (Expr.move f r) (Stmt.move f b) (s.move f)
  | .function ⟨n, ps, t, ⟨body, u⟩, s⟩ =>
    .function ⟨n, ps, t, ⟨Stmt.moveList f body, u.move f⟩, s.move f⟩
  | .return v s => .return (Expr.moveOption f v) (s.move f)
  | .break s => .break (s.move f)
  | .continue s => .continue (s.move f)
  | .expression e => .expression (Expr.move f e)

@[simp] def Stmt.moveOption (f : Position → Position) : Option Stmt → Option Stmt
  | none => none
  | some s => some (Stmt.move f s)

@[simp] def Stmt.moveList (f : Position → Position) : List Stmt → List Stmt
  | [] => []
  | s :: rest => Stmt.move f s :: Stmt.moveList f rest

end

/-- The block with its spans moved. -/
def Block.move (f : Position → Position) (b : Block) : Block :=
  ⟨Stmt.moveList f b.body, b.span.move f⟩

variable {f : Position → Position}

@[simp] theorem Expr.move_run (b : Block) (s : Span) :
    (Expr.run b s).move f = .run (b.move f) (s.move f) := by
  cases b
  rfl

@[simp] theorem Stmt.move_block (b : Block) : (Stmt.block b).move f = .block (b.move f) := by
  cases b
  rfl

@[simp] theorem Stmt.move_function (n : String) (ps : List Parameter) (t : DeclaredType)
    (b : Block) (s : Span) : (Stmt.function ⟨n, ps, t, b, s⟩).move f =
      .function ⟨n, ps, t, b.move f, s.move f⟩ := by
  cases b
  rfl

theorem Expr.moveList_eq (es : List Expr) : Expr.moveList f es = es.map (Expr.move f) := by
  induction es with
  | nil => rfl
  | cons e es ih => rw [Expr.moveList, ih, List.map_cons]

theorem Expr.moveOption_eq (e : Option Expr) : Expr.moveOption f e = e.map (Expr.move f) := by
  cases e <;> rfl

theorem Stmt.moveOption_eq (s : Option Stmt) : Stmt.moveOption f s = s.map (Stmt.move f) := by
  cases s <;> rfl

theorem Expr.span_move (e : Expr) : (e.move f).span = e.span.move f := by
  cases e with
  | run b => cases b; rfl
  | _ => rfl

/-- Whether an expression is a range in parentheses does not depend on its place. -/
theorem Expr.isRange_ungroup_move :
    ∀ e : Expr, (e.move f).ungroup.isRange = e.ungroup.isRange
  | .group inner _ => Expr.isRange_ungroup_move inner
  | .integer .. | .float .. | .boolean .. | .string .. | .name .. | .binary .. | .unary ..
  | .call .. | .range .. | .run ⟨_, _⟩ _ => rfl

/-! ## A move to where it is -/

@[simp] theorem Span.move_id (s : Span) : s.move id = s := rfl

mutual

theorem Expr.move_id : ∀ e : Expr, e.move id = e
  | .integer .. | .float .. | .boolean .. | .string .. | .name .. => rfl
  | .binary _ l r _ => by simp [Expr.move_id l, Expr.move_id r]
  | .unary _ e _ | .group e _ => by simp [Expr.move_id e]
  | .call _ es _ => by simp [Expr.moveList_id es]
  | .range a b _ _ c _ => by simp [Expr.move_id a, Expr.move_id b, Expr.moveOption_id c]
  | .run ⟨body, _⟩ _ => by simp [Stmt.moveList_id body]

theorem Expr.moveList_id : ∀ es : List Expr, Expr.moveList id es = es
  | [] => rfl
  | e :: es => by simp [Expr.move_id e, Expr.moveList_id es]

theorem Expr.moveOption_id : ∀ e : Option Expr, Expr.moveOption id e = e
  | none => rfl
  | some e => by simp [Expr.move_id e]

theorem Stmt.move_id : ∀ s : Stmt, s.move id = s
  | .declare _ _ _ v _ | .assign _ _ v _ | .print v _ _ | .return v _ => by
    simp [Expr.moveOption_id v]
  | .block ⟨body, _⟩ | .function ⟨_, _, _, ⟨body, _⟩, _⟩ => by simp [Stmt.moveList_id body]
  | .branch c a b _ => by simp [Expr.move_id c, Stmt.move_id a, Stmt.moveOption_id b]
  | .whileLoop c b _ | .doWhile b c _ | .forLoop _ c b _ => by
    simp [Expr.move_id c, Stmt.move_id b]
  | .break _ | .continue _ => rfl
  | .expression e => by simp [Expr.move_id e]

theorem Stmt.moveOption_id : ∀ s : Option Stmt, Stmt.moveOption id s = s
  | none => rfl
  | some s => by simp [Stmt.move_id s]

theorem Stmt.moveList_id : ∀ ss : List Stmt, Stmt.moveList id ss = ss
  | [] => rfl
  | s :: ss => by simp [Stmt.move_id s, Stmt.moveList_id ss]

end

end ScriptLang
