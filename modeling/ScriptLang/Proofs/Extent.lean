import ScriptLang.Grammar.Source
import ScriptLang.Proofs.Grammar.Extent
import ScriptLang.Proofs.Grammar.Progress
import ScriptLang.Proofs.Token.Slice

/-!
# Spans are exact

An expression of a program stands in the source from the start of its first token to the end
of its last, its parts inside it. What the source has there is the same expression when it is
read alone.
-/

namespace ScriptLang

/-- The span takes the text out of the source. -/
def Span.Cuts (s : Span) (source file : String) (text : List Char) : Prop :=
  ∃ front back, source.toList = front ++ text ++ back ∧
    s = ⟨⟨byteLength front, file⟩, ⟨byteLength front + byteLength text, file⟩⟩

/-- Alone in a source, the text has these tokens, and they are read as this expression where any
operator is taken, to the last. -/
def Expr.IsReadOf (e : Expr) (text : List Char) (file : String) (own : List Token) : Prop :=
  Token.ofSource (String.ofList text) file = .ok (own ++ [Token.eof file (byteLength text)]) ∧
    ∃ c, Parser.expression .default
        (Cursor.ofTokens (own ++ [Token.eof file (byteLength text)]) file) = .ok e c ∧
      c.pending = []

/-- The span of the expression takes a text out of the source whose tokens are among those of
the source and are covered by the expression. Alone, the text is read as the expression at
another place. -/
def Expr.Exact (source file : String) (tokens : List Token) (e : Expr) : Prop :=
  ∃ (text : List Char) (own : List Token) (alone : Expr),
    e.span.Cuts source file text ∧ alone.IsReadOf text file own ∧
      own.map (Token.move (.shift e.span.start.offset)) <:+: tokens ∧
      e.Covers (own.map (Token.move (.shift e.span.start.offset))) ∧
      e = alone.move (.shift e.span.start.offset)

/-- The parts of each node are inside it, one behind the other, and expressions are exact. -/
def exact (source file : String) (tokens : List Token) : NodeProperty where
  expr e := e.Nests ∧ e.Exact source file tokens
  stmt := Stmt.Nests

theorem Cursor.ofTokens_eof (found : List Token) (file : String) (k : Nat) :
    ofTokens (found ++ [Token.eof file k]) file =
      ⟨.origin file, found, "EOF", ⟨⟨k, file⟩, ⟨k, file⟩⟩⟩ := by
  unfold ofTokens
  rw [List.getLast?_concat]
  dsimp only
  rw [List.dropLast_concat]
  rfl

namespace Grammar

variable {ts own : List Token} {e e' : Expr} {f : Position → Position} {d d' : Cursor}

/-- A cursor has fuel enough for the expression its tokens are read as. -/
theorem Rereads.expression (h : Rereads ts e) (hd : d.pending = ts.map (Token.move f)) :
    ∃ d', Parser.expression .default d = .ok (e.move f) d' ∧ d'.pending = [] := by
  have hanswer := consumes_expression (n := d.fuel) .default
    (Nat.lt_add_of_pos_right (by decide)) d (Nat.le_refl _)
  rcases h f d.fuel d hd with ⟨d', hd'⟩ | ⟨_, d', hd', rfl, hpending⟩
  · rw [hd'] at hanswer
    cases hanswer
  · exact ⟨d', hd', hpending⟩

/-- What is read of the tokens at one place is what they are read as, moved there. -/
theorem Rereads.eq_move (h : Rereads (own.map (Token.move f)) e) (hd : d.pending = own)
    (he : Parser.expression .default d = .ok e' d') : e = e'.move f := by
  -- At the other place the tokens are read as both, and there is only one result.
  let c : Cursor := ⟨f d.lastEnd, own.map (Token.move f), d.endText, d.endSpan⟩
  have hlength : c.fuel = d.fuel := by
    rw [Cursor.fuel, Cursor.fuel, hd, List.length_map]
  obtain ⟨c', hread, -⟩ := h.expression (f := id) (d := c) (List.map_id _).symm
  rw [Expr.move_id] at hread
  obtain ⟨-, hsees⟩ := (carrying ⟨f, []⟩ d.fuel c.fuel).expression .default d e' d' he
  rcases hsees c ⟨⟨own, by rw [hd, List.append_nil], rfl⟩, fun _ => rfl⟩ (Nat.zero_le _) with
    ⟨_, hout⟩ | ⟨_, _, hmoved, rfl, -⟩
  · cases hread.symm.trans hout
  · exact (EStateM.Result.ok.inj (hread.symm.trans hmoved)).1

end Grammar

section

variable {source file : String} {tokens : List Token} {e : Expr}

/-- The slice of a source that an expression covers is read as it. -/
theorem Expr.exact_of_rereads {found ts : List Token}
    (hscan : Token.Scans file [] 0 source.toList found) (hamong : ts <:+: found)
    (hcovers : e.Covers ts) (hreads : Grammar.Rereads ts e) :
    e.Exact source file (found ++ [Token.eof file (byteLength source.toList)]) := by
  obtain ⟨first, last, hfirst, hlast, hspan⟩ := hcovers
  obtain ⟨front, text, back, own, hsource, hstart, hstop, hown, rfl⟩ :=
    hscan.slice hamong hfirst hlast
  rw [hstart, hstop] at hspan
  have hshift : e.span.start.offset = byteLength front := by rw [hspan]
  have hpending :
      (Cursor.ofTokens (own ++ [Token.eof file (byteLength text)]) file).pending = own := by
    rw [Cursor.ofTokens_eof]
  obtain ⟨c, hread, hc⟩ := hreads.expression (hpending.trans (Token.map_unshift _ own).symm)
  refine ⟨text, own, _, ⟨front, back, hsource, hspan⟩, ⟨hown, c, hread, hc⟩, ?_, ?_, ?_⟩
  · rw [hshift]
    exact hamong.trans (List.prefix_append found _).isInfix
  · rw [hshift]
    exact ⟨first, last, hfirst, hlast, by rw [hspan, hstart, hstop]⟩
  · rw [hshift]
    exact hreads.eq_move hpending hread

end

/-- In a program that a source spells, the statements stand inside its span, one behind the
other, and so do the parts of every node inside the node. Each expression starts where its
first token does and ends where its last one does, and what the source has from there to there
is read alone as the same expression, to its end, with its spans moved to the front. -/
theorem Program.exact_of_ofSource {source file : String} {p : Program}
    (h : ofSource source file = .ok p) :
    p.span.Holds (p.body.map Stmt.span) ∧ ∃ tokens, Token.ofSource source file = .ok tokens ∧
      (exact source file tokens).InProgram p := by
  rcases Token.scan_cases file source.toList 0 with
    ⟨found, hscan, hs⟩ | ⟨before, c, after, found, -, -, -, hs⟩
  · have hstands : (Cursor.ofTokens (found ++ [Token.eof file (byteLength source.toList)])
        file).Stands found := by
      rw [Cursor.ofTokens_eof]
      have hascends := hscan.ascends
      rw [Nat.zero_add] at hascends
      exact ⟨List.suffix_refl found, hascends⟩
    rw [Nat.zero_add] at hs
    rw [ofSource, Token.ofSource, hs] at h
    obtain ⟨hbody, hextent⟩ := ofTokens_extent hstands h
    have hexact (e : Expr) (he : (extent found).expr e) :
        (exact source file (found ++ [Token.eof file (byteLength source.toList)])).expr e := by
      obtain ⟨hnests, ts, hamong, hcovers, hreads⟩ := he
      exact ⟨hnests, Expr.exact_of_rereads hscan hamong hcovers hreads⟩
    exact ⟨hbody, _, hs, NodeProperty.inStmts_mono hexact (fun _ => id) _ hextent⟩
  · rw [ofSource, Token.ofSource, hs] at h
    cases h

/-- The range has its step from a later rule, and a comment stands inside the sum. -/
theorem Program.exact_of_ofSource_step :
    let source := "for (i in 0 until 9 step 2) println(i /* é */ + -f(i, 1));"
    ∃ p, ofSource source "text.kt" = .ok p ∧ p.span.Holds (p.body.map Stmt.span) ∧
      ∃ tokens, Token.ofSource source "text.kt" = .ok tokens ∧
        (exact source "text.kt" tokens).InProgram p := by
  intro source
  have hany : (ofSource source "text.kt").toOption.any (fun p => p.body.length = 1) = true := by
    decide +kernel
  obtain ⟨p, hp, -⟩ := exists_of_any hany
  exact ⟨p, hp, exact_of_ofSource hp⟩

end ScriptLang
