import ScriptLang.Grammar.Precedence
import ScriptLang.Number.Reading
import ScriptLang.Tree.Program

/-!
# The tokens a tree stands for

A terminal is what the grammar sees of a token: its kind, and the value it spells
where tokens of one kind differ. A tree read off in source order is a list of
terminals. Semicolons and trailing commas are in no tree, nor is the result type
`Unit`, which is also that of a function without one.
-/

namespace ScriptLang

inductive Terminal where
  | integer (value : Int64)
  | float (value : Float)
  | string (value : String)
  | name (name : String)
  | symbol (kind : TokenKind)

namespace Terminal

def kind : Terminal → TokenKind
  | integer _ => .integer
  | float _ => .float
  | string _ => .string
  | name _ => .identifier
  | symbol k => k

end Terminal

/-- The terminal a token is. A number that cannot be read has only its kind. -/
def Token.terminal (t : Token) : Terminal :=
  match t.kind with
  | .integer => match Number.integer? t.text.toList with
    | some n => .integer n
    | none => .symbol .integer
  | .float => match Number.float? t.text.toList with
    | some x => .float x
    | none => .symbol .float
  | .string => .string t.text
  | .identifier => .name t.text
  | k => .symbol k

def BinaryOperator.token : BinaryOperator → TokenKind
  | .arithmetic .add => .plus
  | .arithmetic .subtract => .dash
  | .arithmetic .multiply => .star
  | .arithmetic .divide => .slash
  | .arithmetic .modulo => .percent
  | .comparison .less => .less
  | .comparison .lessEquals => .lessEquals
  | .comparison .greater => .greater
  | .comparison .greaterEquals => .greaterEquals
  | .comparison .equals => .equals
  | .comparison .notEquals => .notEquals
  | .logical .and => .and
  | .logical .or => .or

def Step.token (s : Step) : TokenKind := if s.isIncrement then .plusPlus else .minusMinus

def UnaryOperator.token : UnaryOperator → TokenKind
  | .not => .not
  | .negate => .dash
  | .plus => .plus
  | .step s => s.token

/-- Whether the operator stands behind its operand. -/
def UnaryOperator.isBehind : UnaryOperator → Bool
  | .step s => !s.isBefore
  | _ => false

/-- The token of an assignment that is no step. -/
def AssignOperator.token : AssignOperator → TokenKind
  | .set => .assignment
  | .combine .add => .plusEquals
  | .combine .subtract => .minusEquals
  | .combine .multiply => .starEquals
  | .combine .divide => .slashEquals
  | .combine .modulo => .percentEquals
  | .step s => s.token

/-- The token between the bounds of a range. -/
def rangeToken (excludesStop descending : Bool) : TokenKind :=
  if excludesStop then .untilWord else if descending then .downToWord else .dotDot

/-- A type behind a colon. -/
def DeclaredType.annotation (t : DeclaredType) : List Terminal := [.symbol .colon, .name t.name]

def Parameter.terminals (p : Parameter) : List Terminal := .name p.name :: p.type.annotation

/-- Lists of terminals with commas between them. -/
def separatedTerminals : List (List Terminal) → List Terminal
  | [] => []
  | [ts] => ts
  | ts :: rest => ts ++ .symbol .comma :: separatedTerminals rest

/-- Terminals in parentheses. -/
def parenthesized (ts : List Terminal) : List Terminal :=
  .symbol .openParen :: ts ++ [.symbol .closeParen]

/-- The result type of a function, where it is written. -/
def DeclaredType.result (t : DeclaredType) : List Terminal :=
  if t = .unit then [] else t.annotation

section

/- What stands behind each statement. -/
variable (ends : List Terminal)

mutual

@[simp] def Expr.terminals : Expr → List Terminal
  | .integer n _ => [.integer n]
  | .float x _ => [.float x]
  | .boolean b _ => [.symbol (if b then .trueWord else .falseWord)]
  | .string s _ => [.string s]
  | .name n _ => [.name n]
  | .binary o l r _ => Expr.terminals l ++ .symbol o.token :: Expr.terminals r
  | .unary o e _ =>
    if o.isBehind then Expr.terminals e ++ [.symbol o.token]
    else .symbol o.token :: Expr.terminals e
  | .group e _ => parenthesized (Expr.terminals e)
  | .call f es _ => .name f :: parenthesized (separatedTerminals (Expr.terminalLists es))
  | .range a b x d c _ =>
    Expr.terminals a ++ .symbol (rangeToken x d) :: Expr.terminals b ++ Expr.stepTerminals c
  | .run ⟨body, _⟩ _ =>
    .symbol .runWord :: .symbol .openCurly :: Stmt.listTerminals body ++ [.symbol .closeCurly]

@[simp] def Expr.terminalLists : List Expr → List (List Terminal)
  | [] => []
  | e :: es => Expr.terminals e :: Expr.terminalLists es

@[simp] def Expr.stepTerminals : Option Expr → List Terminal
  | none => []
  | some e => .symbol .stepWord :: Expr.terminals e

@[simp] def Expr.optionTerminals : Option Expr → List Terminal
  | none => []
  | some e => Expr.terminals e

/-- The value of a declaration. -/
@[simp] def Expr.initialTerminals : Option Expr → List Terminal
  | none => []
  | some e => .symbol .assignment :: Expr.terminals e

/-- A statement without what stands behind it. -/
@[simp] def Stmt.terminals : Stmt → List Terminal
  | .declare n c t v _ =>
    .symbol (if c then .valWord else .varWord) :: .name n ::
      (t.elim [] DeclaredType.annotation ++ Expr.initialTerminals v)
  | .assign n o v _ => match o with
    | .step s =>
      if s.isBefore then [.symbol s.token, .name n] else [.name n, .symbol s.token]
    | o => .name n :: .symbol o.token :: Expr.optionTerminals v
  | .print v l _ =>
    .symbol (if l then .printlnWord else .printWord) :: parenthesized (Expr.optionTerminals v)
  | .block ⟨body, _⟩ => .symbol .openCurly :: Stmt.listTerminals body ++ [.symbol .closeCurly]
  | .branch c a b _ =>
    .symbol .ifWord :: parenthesized (Expr.terminals c) ++ Stmt.terminals a ++ ends ++
      Stmt.elseTerminals b
  | .whileLoop c b _ =>
    .symbol .whileWord :: parenthesized (Expr.terminals c) ++ Stmt.terminals b ++ ends
  | .doWhile b c _ =>
    .symbol .doWord :: Stmt.terminals b ++ ends ++
      .symbol .whileWord :: parenthesized (Expr.terminals c)
  | .forLoop n r b _ =>
    .symbol .forWord :: parenthesized (.name n :: .symbol .inWord :: Expr.terminals r) ++
      Stmt.terminals b ++ ends
  | .function ⟨n, ps, t, ⟨body, _⟩, _⟩ =>
    .symbol .funWord :: .name n ::
      parenthesized (separatedTerminals (ps.map Parameter.terminals)) ++ t.result ++
      .symbol .openCurly :: Stmt.listTerminals body ++ [.symbol .closeCurly]
  | .return v _ => .symbol .returnWord :: Expr.optionTerminals v
  | .break _ => [.symbol .breakWord]
  | .continue _ => [.symbol .continueWord]
  | .expression e => Expr.terminals e

@[simp] def Stmt.elseTerminals : Option Stmt → List Terminal
  | none => []
  | some s => .symbol .elseWord :: Stmt.terminals s ++ ends

@[simp] def Stmt.listTerminals : List Stmt → List Terminal
  | [] => []
  | s :: rest => Stmt.terminals s ++ ends ++ Stmt.listTerminals rest

end

end

theorem Expr.terminalLists_eq (ends : List Terminal) (es : List Expr) :
    Expr.terminalLists ends es = es.map (Expr.terminals ends) := by
  induction es with
  | nil => rfl
  | cons e es ih => rw [Expr.terminalLists, ih, List.map_cons]

/-- A program read off in source order, with `ends` behind each statement. -/
def Program.terminals (ends : List Terminal) (p : Program) : List Terminal :=
  Stmt.listTerminals ends p.body

/-- What is left of a list of tokens without semicolons, commas before a closing
parenthesis, and the result type `Unit`. -/
@[simp] def essentials : List Terminal → List Terminal
  | [] => []
  | .symbol .semicolon :: rest => essentials rest
  | .symbol .comma :: .symbol .closeParen :: rest => essentials (.symbol .closeParen :: rest)
  | .symbol .closeParen :: .symbol .colon :: .name "Unit" :: rest =>
    .symbol .closeParen :: essentials rest
  | t :: rest => t :: essentials rest

section

variable {rest : List Terminal}

/-- A token that is no separator stays, a parenthesis unless a type follows it. -/
theorem essentials_cons {t : Terminal} (hs : t.kind ≠ .semicolon) (hc : t.kind ≠ .comma)
    (hp : t.kind = .closeParen → ∀ u, rest.head? = some u → u.kind ≠ .colon) :
    essentials (t :: rest) = t :: essentials rest := by
  rw [essentials]
  · rintro rfl
    exact hs rfl
  · rintro r rfl
    exact absurd rfl hc
  · rintro r rfl rfl
    exact hp rfl _ rfl rfl

theorem essentials_semicolon : essentials (.symbol .semicolon :: rest) = essentials rest := by
  rw [essentials]

theorem essentials_comma (h : ∀ u, rest.head? = some u → u.kind ≠ .closeParen) :
    essentials (.symbol .comma :: rest) = .symbol .comma :: essentials rest := by
  rw [essentials]
  · simp
  · rintro r - rfl
    exact h _ rfl rfl
  · simp

theorem essentials_trailing :
    essentials (.symbol .comma :: .symbol .closeParen :: rest) =
      essentials (.symbol .closeParen :: rest) := by
  rw [essentials]

/-- A result type stays unless it is `Unit`. -/
theorem essentials_result (t : DeclaredType) :
    essentials (.symbol .closeParen :: t.annotation ++ rest) =
      .symbol .closeParen :: t.result ++ essentials rest := by
  by_cases h : t = .unit
  · subst h
    change essentials (.symbol .closeParen :: .symbol .colon :: .name "Unit" :: rest) = _
    rw [essentials]
    rfl
  · have hn : t.name ≠ "Unit" := by cases t <;> simp_all [DeclaredType.name]
    have hr : t.result = t.annotation := if_neg h
    rw [hr]
    simp only [DeclaredType.annotation, List.cons_append, List.nil_append]
    rw [essentials]
    · rw [essentials_cons, essentials_cons] <;> simp [Terminal.kind]
    all_goals simp [hn]

end

/-- Nothing is dropped across the end of a file. -/
theorem essentials_append {ts us : List Terminal}
    (h : ∀ u, us.head? = some u → u.kind = .eof) :
    essentials (ts ++ us) = essentials ts ++ essentials us := by
  fun_induction essentials ts with
  | case1 => rfl
  | case2 rest ih => rw [List.cons_append, essentials_semicolon, ih]
  | case3 rest ih => rw [List.cons_append, List.cons_append, essentials_trailing, ← ih]; rfl
  | case4 rest ih =>
    simp only [List.cons_append]
    rw [essentials, ih]
  | case5 t rest hs hc hp ih =>
    rw [List.cons_append, essentials, ih, List.cons_append]
    · exact hs
    · rintro r rfl hr
      rcases List.append_eq_cons_iff.mp hr with ⟨rfl, rfl⟩ | ⟨rest', rfl, -⟩
      · cases h _ rfl
      · exact hc _ rfl rfl
    · rintro r rfl hr
      rcases List.append_eq_cons_iff.mp hr with ⟨rfl, rfl⟩ | ⟨rest', rfl, hn⟩
      · cases h _ rfl
      · rcases List.append_eq_cons_iff.mp hn.symm with ⟨rfl, rfl⟩ | ⟨rest'', rfl, -⟩
        · cases h _ rfl
        · exact hp _ rfl rfl

end ScriptLang
