import ScriptLang.Proofs.Grammar.Mirror
import ScriptLang.Proofs.Grammar.Progress

/-!
# Every rule ends

In front of any tokens, ends of the file in the middle included, each rule comes to an answer,
which more fuel does not change. It consumes no end of the file. So nothing behind the first one
is ever read.
-/

namespace ScriptLang

/-- Nothing but the fuel is different. -/
def Outlook.same : Outlook where
  see c := c
  lenient := False
  Beyond _ _ := False
  current _ := .inl rfl
  second _ _ := .inl rfl
  next _ _ := rfl
  lastEnd _ := rfl
  ended := False.elim
  crosses c n he hs := by
    rw [he] at hs
    cases hs

/-! ## The tokens up to the first end of the file -/

/-- The cursor as if the tokens ended with the first end of the file among them. -/
def Cursor.cut (c : Cursor) : Cursor :=
  let last := (c.pending.find? (·.kind = .eof)).getD ⟨.eof, c.endText, c.endSpan⟩
  ⟨c.lastEnd, c.pending.takeWhile (·.kind ≠ .eof), last.text, last.span⟩

namespace Cursor

variable {c : Cursor} {e : Position} {t : Token} {ts : List Token} {x : String} {s : Span}

theorem cut_cons_of_eof (ht : t.kind = .eof) :
    cut ⟨e, t :: ts, x, s⟩ = ⟨e, [], t.text, t.span⟩ := by
  simp [cut, ht]

theorem cut_cons_of_ne (ht : t.kind ≠ .eof) : cut ⟨e, t :: ts, x, s⟩ =
    { cut ⟨e, ts, x, s⟩ with pending := t :: (cut ⟨e, ts, x, s⟩).pending } := by
  simp [cut, ht]

theorem cut_append {before rest : List Token} (ht : t.kind = .eof) :
    cut ⟨e, before ++ t :: rest, x, s⟩ = cut ⟨e, before, t.text, t.span⟩ := by
  induction before with
  | nil => exact cut_cons_of_eof ht
  | cons u before ih =>
    rw [List.cons_append]
    by_cases hu : u.kind = .eof
    · rw [cut_cons_of_eof hu, cut_cons_of_eof hu]
    · rw [cut_cons_of_ne hu, cut_cons_of_ne hu, ih]

/-- Tokens with an end of the file among them, up to there. -/
theorem cut_ofTokens (before : List Token) (ht : t.kind = .eof) (after : List Token)
    (file : String) :
    (ofTokens (before ++ t :: after) file).cut =
      cut ⟨.origin file, before, t.text, t.span⟩ := by
  rcases List.eq_nil_or_concat after with rfl | ⟨after, u, rfl⟩
  · unfold ofTokens
    rw [List.getLast?_concat, List.dropLast_concat]
    simp only [ht, ↓reduceIte]
  · rw [List.concat_eq_append, ← List.cons_append, ← List.append_assoc]
    unfold ofTokens
    rw [List.getLast?_concat, List.dropLast_concat]
    dsimp only
    split
    · exact cut_append ht
    · rw [List.append_assoc, List.cons_append]
      exact cut_append ht

theorem current_cut (c : Cursor) : c.cut.current = c.current := by
  obtain ⟨e, ts, x, s⟩ := c
  cases ts with
  | nil => rfl
  | cons t ts =>
    by_cases ht : t.kind = .eof
    · rw [cut_cons_of_eof ht]
      show ⟨.eof, t.text, t.span⟩ = t
      rw [← ht]
    · rw [cut_cons_of_ne ht]
      rfl

theorem next_cut (h : c.current.kind ≠ .eof) : c.cut.next = c.next.cut := by
  obtain ⟨e, ts, x, s⟩ := c
  cases ts with
  | nil => exact absurd rfl h
  | cons t ts =>
    have ht : t.kind ≠ .eof := h
    rw [cut_cons_of_ne ht]
    rfl

end Cursor

/-- What stands behind the first end of the file is not seen. -/
def Outlook.cut : Outlook where
  see := Cursor.cut
  lenient := False
  Beyond _ _ := False
  current c := .inl c.current_cut
  second c h := .inl (by
    have h' : c.cut.current.kind ≠ .eof := by rwa [c.current_cut]
    rw [Cursor.peek_one h, Cursor.peek_one h', Cursor.next_cut h, Cursor.current_cut])
  next _ := Cursor.next_cut
  lastEnd _ := rfl
  ended := False.elim
  crosses c n he hs := by
    rw [c.current_cut, he] at hs
    cases hs

/-! ## Answers -/

namespace Parser

/-- A fault, or a result behind at least `k` tokens. No end of the file has been consumed. -/
inductive Arrived {α : Type} (k : Nat) (c : Cursor) : EStateM.Result Halt Cursor α → Prop
  | ok {a : α} {c' : Cursor} : c.Precedes c' → c'.pending.length + k ≤ c.pending.length →
    Arrived k c (.ok a c')
  | fault {f : Fault} {c' : Cursor} : c.Precedes c' → Arrived k c (.error (.fault f) c')

/-- In front of the cursor the rule comes to one answer, on any fuel that is enough. -/
def Ends {α : Type} (k : Nat) (rule : Nat → Parser α) (c : Cursor) : Prop :=
  ∃ r, (∀ n, c.fuel ≤ n → rule n c = r) ∧ Arrived k c r

variable {α : Type} {k m : Nat} {c : Cursor}

/-- Two answers to what both runs see are one. -/
theorem Kept.eq_of_answered {o : Outlook} {q : α → α → Prop} (hl : ¬ o.lenient)
    {u v : EStateM.Result Halt Cursor α} {d : Cursor} {j : Nat} (h : Kept o q c u v)
    (hu : Answered k m u) (hv : Answered j d.pending.length v) :
    (∃ a c', c.Precedes c' ∧ u = .ok a c' ∧ v = .ok a (o.see c')) ∨
      ∃ f c', c.Precedes c' ∧ u = .error (.fault f) c' ∧ v = .error (.fault f) (o.see c') := by
  cases h with
  | near h => exact .inl ⟨_, _, h, rfl, rfl⟩
  | beyond h hb hq => exact absurd (o.ended hb).1 hl
  | fault h =>
    cases hu with
    | fault => exact .inr ⟨_, _, h, rfl, rfl⟩
  | lenient h => exact absurd h hl
  | starvedFirst => cases hu
  | starvedSecond => cases hv

/-- Runs that only differ in fuel come to the same answer. -/
theorem Ends.of_mirrors {q : α → α → Prop} {rule : Nat → Parser α}
    (hrule : ∀ k l, Mirrors .same q (rule k) (rule l))
    (hanswer : ∀ n, 3 * c.pending.length + 3 ≤ n → Consumes k c.pending.length (rule n)) :
    Ends k rule c := by
  have hone := hanswer c.fuel (Nat.le_refl _) c (Nat.le_refl _)
  refine ⟨rule c.fuel c, fun n hn => ?_, ?_⟩
  · have hother := hanswer n hn c (Nat.le_refl _)
    rcases (hrule c.fuel n c).eq_of_answered id hone hother with
      ⟨a, c', -, hx, hy⟩ | ⟨f, c', -, hx, hy⟩
    · rw [hx]
      exact hy
    · rw [hx]
      exact hy
  · rcases (hrule c.fuel c.fuel c).eq_of_answered id hone hone with
      ⟨a, c', hc, hx, -⟩ | ⟨f, c', hc, hx, -⟩
    · rw [hx] at hone ⊢
      cases hone with
      | ok hle => exact .ok hc hle
    · rw [hx]
      exact .fault hc

end Parser

namespace Grammar

open ScriptLang.Parser

/-- What each rule does in front of a cursor. The ones for an operand, its continuation and a
statement consume a token at least if they succeed; the loops below them end. -/
structure Terminating (c : Cursor) : Prop where
  operand : Ends 1 (fun n => operand (expression n) (statements n .closeCurly)) c
  continuation (left : Expr) :
    Ends 1 (fun n => continuation (expression n) (arguments n) left) c
  anyStatement : Ends 1 (fun n => anyStatement (expression n .default) (statement n)
    (statements n .closeCurly) (parameters n)) c
  expression (power : BindingPower) : Ends 1 (expression · power) c
  statement : Ends 1 statement c
  block : Ends 1 (fun n => block (statements n .closeCurly)) c
  extended (power : BindingPower) (left : Expr) : Ends 0 (extended · power left) c
  arguments : Ends 0 arguments c
  parameters : Ends 0 parameters c
  semicolons : Ends 0 semicolons c
  statements (close : TokenKind) : Ends 0 (statements · close) c

theorem terminating (c : Cursor) : Terminating c := by
  have hbody (k l : Nat) : Mirrors .same Unreached (statements k .closeCurly)
      (statements l .closeCurly) := mirrors_statements _ k l False.elim
  exact {
    operand := .of_mirrors (fun k l => mirrors_operand (mirrors_expression _ k l) (hbody k l))
      fun n hn => consumes_operand (fun p i hi => consumes_expression p (by omega))
        fun i hi => consumes_statements _ (by omega)
    continuation := fun left => .of_mirrors
      (fun k l => mirrors_continuation (mirrors_expression _ k l) (mirrors_arguments _ k l))
      fun n hn => consumes_continuation (fun p i hi => consumes_expression p (by omega))
        fun i hi => consumes_arguments (by omega)
    anyStatement := .of_mirrors (fun k l => mirrors_anyStatement (mirrors_expression _ k l _)
        (mirrors_statement _ k l) (hbody k l) (mirrors_parameters k l))
      fun n hn => consumes_anyStatement (fun i hi => consumes_expression _ (by omega))
        (fun i hi => consumes_statement (by omega))
        (fun i hi => consumes_statements _ (by omega))
        fun i hi => consumes_parameters (by omega)
    expression := fun p => .of_mirrors (fun k l => mirrors_expression _ k l p)
      fun n hn => consumes_expression p (by omega)
    statement := .of_mirrors (fun k l => mirrors_statement _ k l)
      fun n hn => consumes_statement (by omega)
    block := .of_mirrors (fun k l => mirrors_block (hbody k l))
      fun n hn => consumes_block fun i hi => consumes_statements _ (by omega)
    extended := fun p left => .of_mirrors (fun k l => mirrors_extended _ k l p left)
      fun n hn => consumes_extended p left (by omega)
    arguments := .of_mirrors (fun k l => mirrors_arguments _ k l)
      fun n hn => consumes_arguments (by omega)
    parameters := .of_mirrors (fun k l => mirrors_parameters k l)
      fun n hn => consumes_parameters (by omega)
    semicolons := .of_mirrors (fun k l => mirrors_semicolons k l)
      fun n hn => consumes_semicolons (by omega)
    statements := fun close => .of_mirrors (fun k l => mirrors_statements _ k l False.elim)
      fun n hn => consumes_statements close (by omega) }

/-- A program is read up to the first end of the file, and nothing behind it. -/
theorem statements_cut (c : Cursor) :
    (∃ a c', statements c.fuel .eof c = .ok a c' ∧
      statements c.cut.fuel .eof c.cut = .ok a c'.cut) ∨
    ∃ f c', statements c.fuel .eof c = .error (.fault f) c' ∧
      statements c.cut.fuel .eof c.cut = .error (.fault f) c'.cut := by
  have hanswer (c : Cursor) : Answered 0 c.pending.length (statements c.fuel .eof c) :=
    consumes_statements .eof (Nat.lt_succ_self _) c (Nat.le_refl _)
  rcases (mirrors_statements .cut c.fuel c.cut.fuel False.elim c).eq_of_answered id
    (hanswer c) (hanswer c.cut) with ⟨a, c', -, h⟩ | ⟨f, c', -, h⟩
  · exact .inl ⟨a, c', h⟩
  · exact .inr ⟨f, c', h⟩

end Grammar

namespace Program

/-- Where the tokens are the same up to the first end of the file, the programs are the same. -/
theorem ofTokens_eq_of_cut {tokens tokens' : List Token} {file : String}
    (h : (Cursor.ofTokens tokens file).cut = (Cursor.ofTokens tokens' file).cut) :
    ofTokens tokens file = ofTokens tokens' file := by
  unfold ofTokens Parser.fueled
  dsimp only
  generalize Cursor.ofTokens tokens file = c at h
  generalize Cursor.ofTokens tokens' file = d at h
  have hc := Grammar.statements_cut c
  have hd := Grammar.statements_cut d
  rw [← h] at hd
  rcases hc with ⟨a, c', hc, hcut⟩ | ⟨f, c', hc, hcut⟩
  · rcases hd with ⟨b, d', hd, hcut'⟩ | ⟨f, d', hd, hcut'⟩
    · rw [hcut] at hcut'
      injection hcut' with hbody hcursor
      have hposition : c'.position = d'.position := by
        rw [Cursor.position, Cursor.position, ← c'.current_cut, ← d'.current_cut, hcursor]
      rw [hc, hd, hbody]
      dsimp only
      rw [hposition]
    · rw [hcut] at hcut'
      cases hcut'
  · rcases hd with ⟨b, d', hd, hcut'⟩ | ⟨f', d', hd, hcut'⟩
    · rw [hcut] at hcut'
      cases hcut'
    · rw [hcut] at hcut'
      injection hcut' with hfault hcursor
      rw [hc, hd, hfault]

/-- Parsing ends, whatever the tokens are. A rule consumes no end of the file, and what stands
behind the first one is not told. -/
theorem parsing_ends (tokens : List Token) (file : String) :
    ((∃ p, ofTokens tokens file = .ok p) ∨ ∃ f, ofTokens tokens file = .error (.fault f)) ∧
    (∀ c, Grammar.Terminating c) ∧
    ∀ before eof after, tokens = before ++ eof :: after → eof.kind = .eof →
      ofTokens tokens file = ofTokens (before ++ [eof]) file := by
  refine ⟨ofTokens_answers tokens file, Grammar.terminating, ?_⟩
  rintro before eof after rfl heof
  apply ofTokens_eq_of_cut
  rw [Cursor.cut_ofTokens before heof, Cursor.cut_ofTokens before heof]

/-- The tokens of `f(a,` with another call behind the end of the file. -/
theorem parsing_ends_of_unclosed :
    let before : List Token := [⟨.identifier, "f", default⟩, ⟨.openParen, "(", default⟩,
      ⟨.identifier, "a", default⟩, ⟨.comma, ",", default⟩]
    let eof : Token := ⟨.eof, "end", default⟩
    let after : List Token := [⟨.closeParen, ")", default⟩, ⟨.semicolon, ";", default⟩]
    ofTokens (before ++ eof :: after) "" = ofTokens (before ++ [eof]) "" ∧
      ofTokens (before ++ eof :: after) "" =
        .error (.fault ⟨.unexpectedToken "end", default⟩) := by
  intro before eof after
  have h := (parsing_ends (before ++ eof :: after) "").2.2 before eof after rfl rfl
  exact ⟨h, rfl⟩

end Program

end ScriptLang
