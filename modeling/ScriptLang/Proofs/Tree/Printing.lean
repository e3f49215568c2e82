import ScriptLang.Proofs.Number.Reading
import ScriptLang.Proofs.Tree.Grouping

/-!
# Printing a tree as tokens

A program is printed in source order, a semicolon behind each statement, and with
no parentheses but those of its tree. The conditions under which the tokens are
read back as the same tree are those a grammar without further parentheses needs.
-/

namespace ScriptLang

/-- The token a terminal is printed as. -/
def Terminal.token (digits : Float → String) (span : Span) : Terminal → Token
  | .integer n => ⟨.integer, toString n.toInt, span⟩
  | .float x => ⟨.float, digits x, span⟩
  | .string s => ⟨.string, s, span⟩
  | .name n => ⟨.identifier, n, span⟩
  | .symbol k => ⟨k, k.name, span⟩

/-- What is printed behind each statement. -/
def separator : List Terminal := [.symbol .semicolon]

/-- The tokens of a program and of the end of its file. Token `i` stands at `spans i`. -/
def Program.print (digits : Float → String) (spans : Nat → Span) (p : Program) : List Token :=
  (p.terminals separator ++ [Terminal.symbol .eof]).mapIdx fun i t => t.token digits (spans i)

mutual

/-- Whether an `else` behind a statement would be taken to belong to it. -/
def Stmt.endsOpen : Stmt → Bool
  | .branch _ _ b _ => Stmt.elseEndsOpen b
  | .whileLoop _ b _ => Stmt.endsOpen b
  | .forLoop _ _ b _ => Stmt.endsOpen b
  | _ => false

def Stmt.elseEndsOpen : Option Stmt → Bool
  | none => true
  | some s => Stmt.endsOpen s

end

/-- Whether a statement that begins with tokens of these kinds assigns to a name. -/
def TokenKind.beginAssignment (first second : TokenKind) : Bool :=
  first == .identifier && (second.assignOperator?.isSome || second.postfixStep?.isSome) ||
    first.postfixStep?.isSome && second == .identifier

theorem TokenKind.beginAssignment_semicolon (k : TokenKind) :
    k.beginAssignment .semicolon = false := by
  cases k <;> rfl

/-- Whether an expression as a statement would be taken for an assignment. -/
def Expr.beginsAssignment (e : Expr) : Bool :=
  match e.terminals separator with
  | t :: u :: _ => t.kind.beginAssignment u.kind
  | _ => false

/-- What the grammar asks of an expression. -/
def Expr.Printable (digits : Float → String) : Expr → Prop
  | .integer n _ => 0 ≤ n
  | .float x _ => Number.float? (digits x).toList = some x
  | .range _ _ excludesStop descending _ _ => ¬ (excludesStop ∧ descending)
  | _ => True

/-- What the grammar asks of a statement. -/
def Stmt.Printable : Stmt → Prop
  | .declare _ _ type value _ => type.isSome ∨ value.isSome
  | .assign _ operator value _ => value.isNone ↔ operator.isStep
  | .branch _ thenBody elseBody _ => elseBody.isSome → ¬ thenBody.endsOpen
  | .forLoop _ range _ _ => range.ungroup.isRange
  | .expression e => ¬ e.beginsAssignment
  | _ => True

/-- Trees that can be printed without further parentheses. -/
def printable (digits : Float → String) : NodeProperty :=
  ⟨fun e => e.Groups ∧ e.Printable digits, Stmt.Printable⟩

/-! ## The printed tokens -/

namespace Terminal

/-- A number that is read back, or a mark without a text of its own. -/
def Printable (digits : Float → String) : Terminal → Prop
  | .integer n => 0 ≤ n
  | .float x => Number.float? (digits x).toList = some x
  | .symbol k => k.carriesText = false
  | _ => True

/-- A printed token is the terminal it was printed for. -/
theorem terminal_token {digits : Float → String} {t : Terminal} (h : t.Printable digits)
    (span : Span) : (t.token digits span).terminal = t := by
  cases t with
  | integer n => simp only [token, Token.terminal, Number.integer?_toString h]
  | float x =>
    have hx : Number.float? (digits x).toList = some x := h
    simp only [token, Token.terminal, hx]
  | string s => rfl
  | name n => rfl
  | symbol k =>
    have hk : k.carriesText = false := h
    unfold token Token.terminal
    cases k <;> simp_all [TokenKind.carriesText]

end Terminal

/-- All of the terminals can be printed. -/
def Printed (digits : Float → String) (ts : List Terminal) : Prop := ∀ t ∈ ts, t.Printable digits

section

variable {digits : Float → String} {ts us : List Terminal} {t : Terminal}

namespace Printed

@[simp] theorem nil : Printed digits [] := by simp [Printed]

@[simp] theorem cons : Printed digits (t :: ts) ↔ t.Printable digits ∧ Printed digits ts := by
  simp [Printed]

@[simp] theorem append : Printed digits (ts ++ us) ↔ Printed digits ts ∧ Printed digits us := by
  simp [Printed, or_imp, forall_and]

@[simp] theorem symbol {k : TokenKind} :
    (Terminal.symbol k).Printable digits ↔ k.carriesText = false := Iff.rfl

@[simp] theorem name {n : String} : (Terminal.name n).Printable digits := trivial

@[simp] theorem separator : Printed digits separator := by
  simp [ScriptLang.separator, TokenKind.carriesText]

@[simp] theorem parenthesized : Printed digits (parenthesized ts) ↔ Printed digits ts := by
  simp [ScriptLang.parenthesized, TokenKind.carriesText]

theorem separated {tss : List (List Terminal)} (h : ∀ ts ∈ tss, Printed digits ts) :
    Printed digits (separatedTerminals tss) := by
  induction tss with
  | nil => simp [separatedTerminals]
  | cons ts tss ih =>
    have hts := h ts List.mem_cons_self
    cases tss with
    | nil => exact hts
    | cons us tss =>
      simpa [separatedTerminals, TokenKind.carriesText] using
        ⟨hts, ih fun us hu => h us (List.mem_cons_of_mem _ hu)⟩

@[simp] theorem annotation (t : DeclaredType) : Printed digits t.annotation := by
  simp [DeclaredType.annotation, TokenKind.carriesText]

@[simp] theorem parameter (p : Parameter) : Printed digits p.terminals := by
  simp [Parameter.terminals]

@[simp] theorem result (t : DeclaredType) : Printed digits t.result := by
  unfold DeclaredType.result
  split <;> simp

end Printed

@[simp] theorem BinaryOperator.carriesText_token (o : BinaryOperator) :
    o.token.carriesText = false := by
  rcases o with (_ | _ | _ | _ | _) | (_ | _ | _ | _ | _ | _) | (_ | _) <;> rfl

@[simp] theorem Step.carriesText_token (s : Step) : s.token.carriesText = false := by
  cases s <;> rfl

@[simp] theorem UnaryOperator.carriesText_token (o : UnaryOperator) :
    o.token.carriesText = false := by
  rcases o with _ | _ | _ | (_ | _ | _ | _) <;> rfl

@[simp] theorem AssignOperator.carriesText_token (o : AssignOperator) :
    o.token.carriesText = false := by
  rcases o with _ | (_ | _ | _ | _ | _) | (_ | _ | _ | _) <;> rfl

@[simp] theorem carriesText_rangeToken (x d : Bool) : (rangeToken x d).carriesText = false := by
  cases x <;> cases d <;> rfl

open NodeProperty

mutual

theorem Expr.printed : ∀ {e : Expr}, (printable digits).InExpr e →
    Printed digits (e.terminals separator)
  | .integer n s, h => by
    have : 0 ≤ n := h.2
    simpa [Expr.terminals, Terminal.Printable] using this
  | .float x s, h => by
    have : Number.float? (digits x).toList = some x := h.2
    simpa [Expr.terminals, Terminal.Printable] using this
  | .boolean b _, _ => by cases b <;> simp [Expr.terminals, TokenKind.carriesText]
  | .string .., _ => by simp [Expr.terminals, Terminal.Printable]
  | .name .., _ => by simp [Expr.terminals]
  | .binary .., h => by simp [Expr.terminals, Expr.printed h.2.1, Expr.printed h.2.2]
  | .unary .., h => by
    rw [Expr.terminals]
    split <;> simp [Expr.printed h.2]
  | .group .., h => by simp [Expr.terminals, Expr.printed h.2]
  | .call .., h => by simp [Expr.terminals, Printed.separated (Expr.printedLists h.2)]
  | .range .., h => by
    simp [Expr.terminals, Expr.printed h.2.1, Expr.printed h.2.2.1, Expr.printedStep h.2.2.2]
  | .run ⟨_, _⟩ _, h => by
    simp [Expr.terminals, TokenKind.carriesText, Stmt.printedList h.2]

theorem Expr.printedLists : ∀ {es : List Expr}, (printable digits).InExprs es →
    ∀ ts ∈ Expr.terminalLists separator es, Printed digits ts
  | [], _ => by simp [Expr.terminalLists]
  | e :: es, h => by
    simpa [Expr.terminalLists] using ⟨Expr.printed h.1, Expr.printedLists h.2⟩

theorem Expr.printedStep : ∀ {e : Option Expr}, (printable digits).InOption e →
    Printed digits (Expr.stepTerminals separator e)
  | none, _ => by simp [Expr.stepTerminals]
  | some _, h => by simpa [Expr.stepTerminals, TokenKind.carriesText] using Expr.printed h

theorem Expr.printedOption : ∀ {e : Option Expr}, (printable digits).InOption e →
    Printed digits (Expr.optionTerminals separator e)
  | none, _ => by simp [Expr.optionTerminals]
  | some _, h => by simpa [Expr.optionTerminals] using Expr.printed h

theorem Expr.printedInitial : ∀ {e : Option Expr}, (printable digits).InOption e →
    Printed digits (Expr.initialTerminals separator e)
  | none, _ => by simp [Expr.initialTerminals]
  | some _, h => by simpa [Expr.initialTerminals, TokenKind.carriesText] using Expr.printed h

theorem Stmt.printed : ∀ {s : Stmt}, (printable digits).InStmt s →
    Printed digits (s.terminals separator)
  | .declare _ c t _ _, h => by
    cases c <;> cases t <;>
      simp [Stmt.terminals, TokenKind.carriesText, Expr.printedInitial h.2]
  | .assign _ o _ _, h => by
    cases o with
    | step s =>
      rw [Stmt.terminals]
      split <;> simp
    | _ => simp [Stmt.terminals, Expr.printedOption h.2]
  | .print _ l _, h => by
    cases l <;> simp [Stmt.terminals, TokenKind.carriesText, Expr.printedOption h.2]
  | .block ⟨_, _⟩, h => by simp [Stmt.terminals, TokenKind.carriesText, Stmt.printedList h.2]
  | .branch .., h => by
    simp [Stmt.terminals, TokenKind.carriesText, Expr.printed h.2.1, Stmt.printed h.2.2.1,
      Stmt.printedElse h.2.2.2]
  | .whileLoop .., h => by
    simp [Stmt.terminals, TokenKind.carriesText, Expr.printed h.2.1, Stmt.printed h.2.2]
  | .doWhile .., h => by
    simp [Stmt.terminals, TokenKind.carriesText, Stmt.printed h.2.1, Expr.printed h.2.2]
  | .forLoop .., h => by
    simp [Stmt.terminals, TokenKind.carriesText, Expr.printed h.2.1, Stmt.printed h.2.2]
  | .function ⟨_, ps, _, ⟨_, _⟩, _⟩, h => by
    have : ∀ ts ∈ ps.map Parameter.terminals, Printed digits ts := by simp
    simp [Stmt.terminals, TokenKind.carriesText, Printed.separated this, Stmt.printedList h.2]
  | .return .., h => by simp [Stmt.terminals, TokenKind.carriesText, Expr.printedOption h.2]
  | .break _, _ => by simp [Stmt.terminals, TokenKind.carriesText]
  | .continue _, _ => by simp [Stmt.terminals, TokenKind.carriesText]
  | .expression _, h => by simp [Stmt.terminals, Expr.printed h.2]

theorem Stmt.printedElse : ∀ {s : Option Stmt}, (printable digits).InElse s →
    Printed digits (Stmt.elseTerminals separator s)
  | none, _ => by simp [Stmt.elseTerminals]
  | some _, h => by simp [Stmt.elseTerminals, TokenKind.carriesText, Stmt.printed h]

theorem Stmt.printedList : ∀ {body : List Stmt}, (printable digits).InStmts body →
    Printed digits (Stmt.listTerminals separator body)
  | [], _ => by simp [Stmt.listTerminals]
  | s :: rest, h => by simp [Stmt.listTerminals, Stmt.printed h.1, Stmt.printedList h.2]

end

/-- A printed program spells the terminals it was printed from. -/
theorem Program.map_terminal_print {p : Program} (h : (printable digits).InProgram p)
    (spans : Nat → Span) :
    (p.print digits spans).map Token.terminal = p.terminals separator ++ [.symbol .eof] := by
  have hp : Printed digits (p.terminals separator ++ [.symbol .eof]) := by
    simpa [Program.terminals, TokenKind.carriesText] using Stmt.printedList h
  refine List.ext_getElem (by simp [print]) fun i hi hi' => ?_
  simp only [print, List.getElem_map, List.getElem_mapIdx]
  exact Terminal.terminal_token (hp _ (List.getElem_mem hi')) (spans i)

end

end ScriptLang
