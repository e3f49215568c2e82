import ScriptLang.Grammar.Cursor
import ScriptLang.Proofs.Tree.Terminal

/-!
# The terminals ahead of a cursor

What a rule sees of the tokens still to be read, and what a tree begins with.
-/

namespace ScriptLang

namespace Token

@[simp] theorem terminal_kind (t : Token) : t.terminal.kind = t.kind := by
  unfold terminal
  cases hk : t.kind with
  | integer => cases Number.integer? t.text.toList <;> rfl
  | float => cases Number.float? t.text.toList <;> rfl
  | _ => rfl

theorem terminal_eq_symbol {t : Token} {k : TokenKind} (h : t.kind = k)
    (hk : k.carriesText = false) : t.terminal = .symbol k := by
  unfold terminal
  cases k <;> simp_all [TokenKind.carriesText]

theorem terminal_eq_name {t : Token} (h : t.kind = .identifier) : t.terminal = .name t.text := by
  simp [terminal, h]

end Token

/-- What stands next. -/
def nextKind : List Terminal → TokenKind
  | [] => .eof
  | t :: _ => t.kind

/-- Terminals behind the semicolons they begin with. -/
def trim (w : List Terminal) : List Terminal := w.dropWhile fun t => t.kind == .semicolon

section

variable {w : List Terminal}

theorem trim_semicolon (w : List Terminal) : trim (.symbol .semicolon :: w) = trim w := rfl

theorem trim_of_ne (h : nextKind w ≠ .semicolon) : trim w = w := by
  cases w with
  | nil => rfl
  | cons t w =>
    have ht : t.kind ≠ .semicolon := h
    simp [trim, ht]

theorem nextKind_trim (w : List Terminal) : nextKind (trim w) ≠ .semicolon := by
  induction w with
  | nil => decide
  | cons t w ih =>
    by_cases h : t.kind = .semicolon
    · simpa [trim, h] using ih
    · simp [trim, h, nextKind]

theorem length_trim_le (w : List Terminal) : (trim w).length ≤ w.length :=
  (List.dropWhile_suffix _).length_le

end

namespace Cursor

/-- The terminals that are still to be read. -/
def ahead (c : Cursor) : List Terminal := c.pending.map Token.terminal

theorem pending_eq {c : Cursor} (h : c.current.kind ≠ .eof) :
    c.pending = c.current :: c.next.pending := by
  cases hp : c.pending with
  | nil => exact absurd (by simp [current, peek, hp]) h
  | cons t ts => simp [current, peek, next, hp]

theorem peek_one {c : Cursor} (h : c.current.kind ≠ .eof) : c.peek 1 = c.next.current := by
  cases hp : c.pending with
  | nil => exact absurd (by simp [current, peek, hp]) h
  | cons t ts => simp [current, peek, next, hp]

theorem ahead_eq {c : Cursor} (h : c.current.kind ≠ .eof) :
    c.ahead = c.current.terminal :: c.next.ahead := by
  rw [ahead, pending_eq h]
  rfl

theorem ahead_head {c : Cursor} {t : Terminal} (h : c.ahead.head? = some t) :
    t = c.current.terminal := by
  cases hp : c.pending with
  | nil => simp [ahead, hp] at h
  | cons u us => simpa [ahead, current, peek, hp, eq_comm] using h

variable {c : Cursor} {t : Terminal} {w : List Terminal}

theorem current_kind (c : Cursor) : c.current.kind = nextKind c.ahead := by
  unfold current peek ahead
  cases c.pending with
  | nil => rfl
  | cons t ts => simp [nextKind]

theorem ahead_cons (h : c.ahead = t :: w) : c.current.terminal = t ∧ c.next.ahead = w := by
  unfold ahead at h
  cases hp : c.pending with
  | nil => simp [hp] at h
  | cons u us => simpa [current, peek, next, ahead, hp] using h

theorem ahead_symbol {k : TokenKind} (h : c.ahead = .symbol k :: w) :
    c.current.kind = k ∧ c.next.ahead = w :=
  ⟨by rw [current_kind, h]; rfl, (ahead_cons h).2⟩

theorem ahead_name {n : String} (h : c.ahead = .name n :: w) :
    c.current.kind = .identifier ∧ c.current.text = n ∧ c.next.ahead = w := by
  obtain ⟨ht, hn⟩ := ahead_cons h
  have hk : c.current.kind = .identifier := by
    rw [← Token.terminal_kind, ht]
    rfl
  rw [Token.terminal_eq_name hk, Terminal.name.injEq] at ht
  exact ⟨hk, ht, hn⟩

/-- A token that ends the file is not among those to be read. -/
theorem ahead_ofTokens {tokens : List Token} (file : String)
    (h : tokens.map Token.terminal = w ++ [.symbol .eof]) : (ofTokens tokens file).ahead = w := by
  obtain ⟨ts, us, rfl, hts, hus⟩ := List.map_eq_append_iff.mp h
  obtain ⟨u, rfl, hu⟩ := List.map_eq_singleton_iff.mp hus
  have hk : u.kind = .eof := by
    rw [← Token.terminal_kind, hu]
    rfl
  simp only [ofTokens, List.getLast?_concat, hk, if_true, List.dropLast_concat]
  exact hts

end Cursor

/-! ## First tokens -/

theorem beginsOperand_terminals (ends : List Terminal) : ∀ (e : Expr) (u : List Terminal),
    (nextKind (e.terminals ends ++ u)).beginsOperand
  | .integer .., _ => rfl
  | .float .., _ => rfl
  | .boolean b _, _ => by cases b <;> rfl
  | .string .., _ => rfl
  | .name .., _ => rfl
  | .binary _ l _ _, u => by
    simpa [Expr.terminals] using beginsOperand_terminals ends l _
  | .unary o e _, u => by
    rw [Expr.terminals]
    split
    · simpa using beginsOperand_terminals ends e _
    · rcases o with _ | _ | _ | (_ | _ | _ | _) <;> rfl
  | .group .., _ => rfl
  | .call .., _ => rfl
  | .range a .., u => by
    simpa [Expr.terminals] using beginsOperand_terminals ends a _
  | .run ⟨_, _⟩ _, _ => rfl

theorem begins_terminals (ends : List Terminal) (s : Stmt) (u : List Terminal) :
    (nextKind (s.terminals ends ++ u)).beginsStatement ∨
      (nextKind (s.terminals ends ++ u)).beginsOperand := by
  cases s with
  | declare n c => cases c <;> exact .inl rfl
  | assign n o =>
    cases o with
    | step s => cases s <;> exact .inl rfl
    | _ => exact .inl rfl
  | print v l => cases l <;> exact .inl rfl
  | block b => cases b; exact .inl rfl
  | function f =>
    obtain ⟨_, _, _, ⟨_, _⟩, _⟩ := f
    exact .inl rfl
  | expression e => exact .inr (beginsOperand_terminals ends e u)
  | _ => exact .inl rfl

/-- No statement begins with a token that ends one. -/
theorem nextKind_terminals_ne (ends : List Terminal) (s : Stmt) (u : List Terminal)
    {k : TokenKind} (hk : k.beginsStatement = false ∧ k.beginsOperand = false) :
    nextKind (s.terminals ends ++ u) ≠ k := by
  rintro rfl
  rcases begins_terminals ends s u with h | h
  · rw [hk.1] at h
    cases h
  · rw [hk.2] at h
    cases h

end ScriptLang
