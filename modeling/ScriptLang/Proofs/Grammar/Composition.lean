import ScriptLang.Proofs.Grammar.Ending
import ScriptLang.Proofs.Grammar.Spans

/-!
# Programs compose

Between two programs a semicolon stands where the file ended for the first of them. It is a
statement's end there too: nothing of the first program reaches across it, whatever follows.
So the statements of both are read, one after the other.
-/

namespace ScriptLang

/-- No end of the file is among the pending tokens. -/
def Cursor.EndFree (c : Cursor) : Prop := ∀ t ∈ c.pending, t.kind ≠ .eof

namespace Cursor.EndFree

variable {c c' : Cursor}

theorem later (hc : c.EndFree) (h : c.Precedes c') : c'.EndFree := by
  obtain ⟨ts, -, hpending⟩ := h
  intro t ht
  apply hc t
  rw [hpending]
  exact List.mem_append_right ts ht

theorem nil (hc : c.EndFree) (he : c.current.kind = .eof) : c.pending = [] := by
  cases hpending : c.pending with
  | nil => rfl
  | cons t ts =>
    rw [Cursor.current, Cursor.peek, hpending] at he
    exact absurd he (hc t (by rw [hpending]; exact List.mem_cons_self))

end Cursor.EndFree

/-! ## Behind semicolons -/

/-- The second cursor is behind the semicolons that the first one stands at. -/
structure Cursor.Skips (c d : Cursor) : Prop where
  pending : d.pending = c.pending.dropWhile (·.kind = .semicolon)
  endText : d.endText = c.endText

namespace Cursor.Skips

variable {c d : Cursor}

theorem refl (h : c.current.kind ≠ .semicolon) : c.Skips c := by
  refine ⟨?_, rfl⟩
  cases hc : c.pending with
  | nil => rfl
  | cons t ts =>
    have ht : t.kind ≠ .semicolon := by
      rwa [Cursor.current, Cursor.peek, hc] at h
    rw [List.dropWhile_cons_of_neg (by simpa using ht)]

theorem of_next (h : c.current.kind = .semicolon) (hd : c.next.Skips d) : c.Skips d := by
  have hne : c.current.kind ≠ .eof := by rw [h]; decide
  obtain ⟨e, ts, x, s⟩ := c
  cases ts with
  | nil => exact absurd rfl hne
  | cons t ts =>
    refine ⟨?_, hd.endText⟩
    have ht : t.kind = .semicolon := h
    rw [hd.pending, List.dropWhile_cons_of_pos (by simpa using ht)]
    rfl

end Cursor.Skips

namespace Parser

/-- The fuel was not enough. -/
def Starved {α : Type} (r : EStateM.Result Halt Cursor α) : Prop := ∃ d, r = .error .outOfFuel d

end Parser

namespace Grammar

open ScriptLang.Parser

variable {c : Cursor} {close : TokenKind}

theorem semicolons_skips : ∀ (n : Nat) (c : Cursor),
    Starved (semicolons n c) ∨ ∃ d, semicolons n c = .ok () d ∧ c.Skips d
  | 0, _ => .inl ⟨_, rfl⟩
  | n + 1, c => by
    by_cases hc : c.current.kind = .semicolon
    · have hstep : semicolons (n + 1) c = semicolons n c.next := by
        rw [semicolons, Parser.eat_bind, if_pos hc]
        rfl
      rw [hstep]
      rcases semicolons_skips n c.next with h | ⟨d, h, hd⟩
      · exact .inl h
      · exact .inr ⟨d, h, .of_next hc hd⟩
    · exact .inr ⟨c, semicolons_of_ne hc n, .refl hc⟩

theorem statements_of_semicolon (hclose : close ≠ .semicolon)
    (hc : c.current.kind = .semicolon) (n : Nat) :
    statements (n + 1) close c = statements n close c.next := by
  rw [statements, Parser.current_bind, if_neg (by rw [hc]; exact hclose.symm), Parser.eat_bind,
    if_pos hc]
  rfl

theorem statements_skips (hclose : close ≠ .semicolon) : ∀ (n : Nat) (c : Cursor),
    Starved (statements n close c) ∨
      ∃ m d, statements n close c = statements m close d ∧ c.Skips d
  | 0, _ => .inl ⟨_, rfl⟩
  | n + 1, c => by
    by_cases hc : c.current.kind = .semicolon
    · rw [statements_of_semicolon hclose hc]
      rcases statements_skips hclose n c.next with h | ⟨m, d, h, hd⟩
      · exact .inl h
      · exact .inr ⟨m, d, h, .of_next hc hd⟩
    · exact .inr ⟨n + 1, c, rfl, .refl hc⟩

/-- No program begins with an `else`, not even behind semicolons. -/
theorem ne_else_of_statements {n : Nat} {ss : List Stmt} {c' : Cursor}
    (h : statements n .eof c = .ok ss c') :
    ∀ t ∈ (c.pending.dropWhile (·.kind = .semicolon)).head?, t.kind ≠ .elseWord := by
  intro t ht hkind
  rcases statements_skips (by decide : TokenKind.eof ≠ .semicolon) n c with
    ⟨d, hstarved⟩ | ⟨m, d, hd, hskips⟩
  · rw [h] at hstarved
    cases hstarved
  · have hcurrent : d.current = t := by
      rw [← hskips.pending] at ht
      obtain ⟨ts, hts⟩ := List.head?_eq_some_iff.mp ht
      rw [Cursor.current, Cursor.peek, hts]
      rfl
    have hbarred : d.current.kind = .elseWord := by rw [hcurrent, hkind]
    obtain ⟨f, d', hfail⟩ := statements_of_barred (.inr hbarred)
      (by rw [hbarred]; decide : d.current.kind ≠ .eof) m
    rw [hd, hfail] at h
    cases h

end Grammar

/-! ## A program in front of another one -/

/-- What stands behind a program: a semicolon and the tokens of another program, which does not
begin with an `else`. -/
structure Continuation where
  semicolon : Token
  tokens : List Token
  endText : String
  endSpan : Span
  isSemicolon : semicolon.kind = .semicolon
  notElse : ∀ t ∈ (tokens.dropWhile (·.kind = .semicolon)).head?, t.kind ≠ .elseWord

/-- Where the file ends, the continuation is seen. -/
def Outlook.joined (j : Continuation) : Outlook where
  see c := ⟨c.lastEnd, c.pending ++ j.semicolon :: j.tokens, j.endText, j.endSpan⟩
  lenient := True
  Beyond c d := c.pending = [] ∧ d.pending = j.tokens.dropWhile (·.kind = .semicolon) ∧
    d.endText = j.endText
  current c := by
    obtain ⟨e, ts, x, s⟩ := c
    cases ts with
    | nil => exact .inr ⟨trivial, rfl, j.isSemicolon⟩
    | cons t ts => exact .inl rfl
  second c h := by
    obtain ⟨e, ts, x, s⟩ := c
    rcases ts with _ | ⟨t, _ | ⟨u, ts⟩⟩
    · exact absurd rfl h
    · exact .inr ⟨rfl, j.isSemicolon⟩
    · exact .inl rfl
  next c h := by
    obtain ⟨e, ts, x, s⟩ := c
    cases ts with
    | nil => exact absurd rfl h
    | cons t ts => rfl
  lastEnd _ := rfl
  ended := by
    rintro ⟨e, _, x, s⟩ ⟨e', ts, x', s'⟩ ⟨rfl, hts, -⟩
    have hts : ts = j.tokens.dropWhile (·.kind = .semicolon) := hts
    have hhead := List.head?_dropWhile_not (·.kind = .semicolon) j.tokens
    have helse := j.notElse
    rw [← hts] at hhead helse
    cases ts with
    | nil => exact ⟨trivial, rfl, nofun, nofun⟩
    | cons t ts =>
      have ht : t.kind ≠ .semicolon := by simpa using hhead
      exact ⟨trivial, rfl, ht, helse t rfl⟩
  crosses c n he hs := by
    obtain ⟨e, ts, x, s⟩ := c
    cases ts with
    | nil =>
      rcases Grammar.semicolons_skips n ⟨e, j.semicolon :: j.tokens, j.endText, j.endSpan⟩ with
        h | ⟨d, h, hd⟩
      · exact .inl h
      · refine .inr ⟨d, h, rfl, ?_, hd.endText⟩
        rw [hd.pending, List.dropWhile_cons_of_pos (by simpa using j.isSemicolon)]
    | cons t ts =>
      have ht : t.kind = .eof := he
      exact absurd (ht.symm.trans hs) (by decide)

namespace Grammar

open ScriptLang.Parser

/-- Behind the first statements the second run goes on with the other program. -/
def GoesOn (o : Outlook) (ss : List Stmt) (c : Cursor)
    (r : EStateM.Result Halt Cursor (List Stmt)) : Prop :=
  Starved r ∨ ∃ ts m d, Stmt.bareList ts = Stmt.bareList ss ∧ o.Beyond c d ∧
    r = ((ts ++ ·) <$> statements m .eof) d

variable {o : Outlook} {j : Continuation} {l : Nat} {c d : Cursor} {s t : Stmt} {ss : List Stmt}
  {close : TokenKind}

theorem statements_cons (hclose : c.current.kind ≠ close) (hs : c.current.kind ≠ .semicolon)
    (n : Nat) : statements (n + 1) close c =
      (do let s ← statement n; return s :: (← statements n close) : Parser (List Stmt)) c := by
  rw [statements, Parser.current_bind, if_neg hclose, Parser.eat_bind, if_neg hs]
  rfl

theorem GoesOn.cons (hs : t.bare = s.bare) (h : GoesOn o ss c (statements l .eof d)) :
    GoesOn o (s :: ss) c ((do return t :: (← statements l .eof) : Parser (List Stmt)) d) := by
  rcases h with ⟨d', h⟩ | ⟨ts, m, d', hts, hd, h⟩
  · exact .inl ⟨d', bind_of_error _ h⟩
  · refine .inr ⟨t :: ts, m, d', by rw [Stmt.bareList, Stmt.bareList, hs, hts], hd, ?_⟩
    rw [map_eq_pure_bind] at h ⊢
    cases hm : statements m .eof d' with
    | ok us d'' =>
      rw [bind_of_ok _ hm] at h
      rw [bind_of_ok _ h, bind_of_ok _ hm]
      rfl
    | error f d'' =>
      rw [bind_of_error _ hm] at h
      rw [bind_of_error _ h, bind_of_error _ hm]

/-- At the end of the first file the second run skips the semicolon and goes on. -/
theorem GoesOn.of_nil (hc : c.pending = []) (l : Nat) :
    GoesOn (.joined j) [] c (statements l .eof ((Outlook.joined j).see c)) := by
  rcases statements_skips (by decide : TokenKind.eof ≠ .semicolon) l ((Outlook.joined j).see c)
    with h | ⟨m, d, h, hd⟩
  · exact .inl h
  · refine .inr ⟨[], m, d, rfl, ⟨hc, ?_, hd.endText⟩, ?_⟩
    · rw [hd.pending]
      show (c.pending ++ j.semicolon :: j.tokens).dropWhile _ = _
      rw [hc, List.nil_append, List.dropWhile_cons_of_pos (by simpa using j.isSemicolon)]
    · rw [h]
      simp

theorem statements_of_nil (hc : c.pending = []) {k : Nat} {c' : Cursor}
    (h : statements k .eof c = .ok ss c') : ss = [] ∧ c' = c := by
  have he : c.current.kind = .eof := by
    rw [Cursor.current, Cursor.peek, hc]
    rfl
  cases k with
  | zero => cases h
  | succ k =>
    rcases statements_ok.mp h with ⟨-, h⟩ | ⟨hne, -⟩ | ⟨hne, -⟩
    · exact h
    · exact absurd he hne
    · exact absurd he hne

/-- Each statement of the first program is read as it was, up to where its file ended. -/
theorem statements_joined (j : Continuation) : ∀ (k l : Nat) {c c' : Cursor} {ss : List Stmt},
    c.EndFree → statements k .eof c = .ok ss c' →
    GoesOn (.joined j) ss c' (statements l .eof ((Outlook.joined j).see c))
  | 0, _, _, _, _, _, h => by cases h
  | _ + 1, 0, _, _, _, _, _ => .inl ⟨_, rfl⟩
  | k + 1, l + 1, c, c', ss, hc, h => by
    rcases statements_ok.mp h with ⟨he, rfl, rfl⟩ | ⟨he, hs, hrest⟩ |
      ⟨he, hs, s, c₁, hstatement, rest, hrest, rfl⟩
    · exact .of_nil (hc.nil he) _
    · have hcurrent := (Outlook.joined j).current_of_kind he
      rw [statements_of_semicolon (by decide) (by rwa [hcurrent]), (Outlook.joined j).next c he]
      exact statements_joined j k l (hc.later (.next he)) hrest
    · have hcurrent := (Outlook.joined j).current_of_kind he
      rw [statements_cons (by rwa [hcurrent]) (by rwa [hcurrent])]
      have hsecond := mirrors_statement (.joined j) k l c
      rw [MirrorsAt, hstatement] at hsecond
      generalize hr : statement l ((Outlook.joined j).see c) = r at hsecond
      cases hsecond with
      | near h =>
        rw [bind_of_ok _ hr]
        exact (statements_joined j k l (hc.later h) hrest).cons rfl
      | @beyond _ t _ d h hb hq =>
        rw [bind_of_ok _ hr]
        obtain ⟨rfl, rfl⟩ := statements_of_nil hb.1 hrest
        have hgoes : GoesOn (.joined j) [] c' (statements l .eof d) :=
          .inr ⟨[], l, d, rfl, hb, by simp⟩
        exact hgoes.cons hq.symm
      | starvedSecond => exact .inl ⟨_, bind_of_error _ hr⟩

/-- Whatever the fuel, what is read from behind semicolons is what is read from in front of
them. -/
theorem statements_behind {k m : Nat} {c' : Cursor} (h : statements k .eof c = .ok ss c')
    (hd : c.Skips d) : Starved (statements m .eof d) ∨
      ∃ ts d', statements m .eof d = .ok ts d' ∧ Stmt.bareList ts = Stmt.bareList ss := by
  rcases statements_skips (by decide : TokenKind.eof ≠ .semicolon) k c with
    ⟨_, hstarved⟩ | ⟨n, e, he, hskips⟩
  · rw [h] at hstarved
    cases hstarved
  · have halike : e.Alike d :=
      ⟨by rw [hd.pending, hskips.pending], by rw [hd.endText, hskips.endText]⟩
    have hshows := shows_statements n .eof _ _ halike
    rw [← he, h] at hshows
    generalize hx : statements n .eof d = x at hshows
    cases hshows with
    | @ok _ ts _ d' hts =>
      have hfuel : Mirrors .same Unreached (statements n .eof) (statements m .eof) :=
        mirrors_statements .same n m False.elim
      have hfuel := hfuel d
      rw [MirrorsAt, hx] at hfuel
      generalize hy : statements m .eof (Outlook.same.see d) = y at hfuel
      cases hfuel with
      | near => exact .inr ⟨ts, _, hy, hts.1.symm⟩
      | beyond _ hb => exact hb.elim
      | starvedSecond => exact .inl ⟨_, hy⟩

theorem not_starved (c : Cursor) : ¬ Starved (statements c.fuel .eof c) := by
  rintro ⟨d, hd⟩
  have hanswer : Answered 0 c.pending.length (statements c.fuel .eof c) :=
    consumes_statements .eof (Nat.lt_succ_self _) c (Nat.le_refl _)
  rw [hd] at hanswer
  cases hanswer

end Grammar

theorem Stmt.bareList_append (ss ts : List Stmt) :
    bareList (ss ++ ts) = bareList ss ++ bareList ts := by
  induction ss with
  | nil => rfl
  | cons s ss ih => rw [List.cons_append, bareList, bareList, ih, List.cons_append]

namespace Program

variable {tokens tokens' : List Token} {semicolon : Token} {file : String} {p q : Program}

theorem cursor_of_endFree (h : ∀ t ∈ tokens, t.kind ≠ .eof) (file : String) : ∃ s,
    Cursor.ofTokens tokens file = ⟨.origin file, tokens, "EOF", s⟩ := by
  unfold Cursor.ofTokens
  cases hlast : tokens.getLast? with
  | none => exact ⟨_, by rw [List.getLast?_eq_none_iff.mp hlast]⟩
  | some t => exact ⟨_, if_neg (h t (List.mem_of_getLast? hlast))⟩

theorem statements_of_ofTokens (h : ofTokens tokens file = .ok p) :
    ∃ c, Grammar.statements (Cursor.ofTokens tokens file).fuel .eof
      (Cursor.ofTokens tokens file) = .ok p.body c := by
  unfold ofTokens at h
  split at h
  case h_2 => cases h
  case h_1 body c hs =>
    cases h
    exact ⟨c, hs⟩

theorem ofTokens_of_statements {ss : List Stmt} {c : Cursor}
    (h : Grammar.statements (Cursor.ofTokens tokens file).fuel .eof
      (Cursor.ofTokens tokens file) = .ok ss c) :
    ∃ r, ofTokens tokens file = .ok r ∧ r.body = ss := by
  unfold ofTokens Parser.fueled
  dsimp only
  rw [h]
  exact ⟨_, rfl, rfl⟩

/-- The statements of two programs with a semicolon between are those of the first program,
followed by those of the second one. -/
theorem ofTokens_joined (h : ∀ t ∈ tokens, t.kind ≠ .eof) (h' : ∀ t ∈ tokens', t.kind ≠ .eof)
    (hsemicolon : semicolon.kind = .semicolon) (hp : ofTokens tokens file = .ok p)
    (hq : ofTokens tokens' file = .ok q) :
    ∃ r, ofTokens (tokens ++ semicolon :: tokens') file = .ok r ∧
      Stmt.bareList r.body = Stmt.bareList p.body ++ Stmt.bareList q.body := by
  have hboth : ∀ t ∈ tokens ++ semicolon :: tokens', t.kind ≠ .eof := by
    intro t ht
    rcases List.mem_append.mp ht with ht | ht
    · exact h t ht
    · rcases List.mem_cons.mp ht with rfl | ht
      · rw [hsemicolon]
        decide
      · exact h' t ht
  obtain ⟨span, hfirst⟩ := cursor_of_endFree h file
  obtain ⟨span', hsecond⟩ := cursor_of_endFree h' file
  obtain ⟨last, hjoined⟩ := cursor_of_endFree hboth file
  obtain ⟨c, hc⟩ := statements_of_ofTokens hp
  obtain ⟨d, hd⟩ := statements_of_ofTokens hq
  let j : Continuation := {
    semicolon, tokens := tokens', endText := "EOF", endSpan := last, isSemicolon := hsemicolon
    notElse := by
      have helse := Grammar.ne_else_of_statements hd
      rwa [hsecond] at helse }
  -- The first program is read as it was, on the fuel of all the tokens.
  have hsee : (Outlook.joined j).see (Cursor.ofTokens tokens file) =
      Cursor.ofTokens (tokens ++ semicolon :: tokens') file := by
    rw [hfirst, hjoined]
    rfl
  have hgoes := Grammar.statements_joined j _
    (Cursor.ofTokens (tokens ++ semicolon :: tokens') file).fuel (by rw [hfirst]; exact h) hc
  rw [hsee] at hgoes
  rcases hgoes with hstarved | ⟨ss, m, e, hss, ⟨-, hpending, htext⟩, hrun⟩
  · exact absurd hstarved (Grammar.not_starved _)
  -- Then the second one, which is not starved either.
  have hskips : (Cursor.ofTokens tokens' file).Skips e := by
    rw [hsecond]
    exact ⟨hpending, htext⟩
  rcases Grammar.statements_behind (m := m) hd hskips with ⟨e', hstarved⟩ | ⟨ts, e', hts, hbare⟩
  · rw [map_of_error hstarved] at hrun
    exact absurd ⟨e', hrun⟩ (Grammar.not_starved _)
  · rw [map_of_ok hts] at hrun
    obtain ⟨r, hr, hbody⟩ := ofTokens_of_statements hrun
    refine ⟨r, hr, ?_⟩
    rw [hbody, Stmt.bareList_append, hss, hbare]

/-- `while (a) if (b) return` in front of `; c += d`. -/
theorem ofTokens_joined_return :
    let tokens : List Token :=
      [⟨.whileWord, "while", default⟩, ⟨.openParen, "(", default⟩, ⟨.identifier, "a", default⟩,
        ⟨.closeParen, ")", default⟩, ⟨.ifWord, "if", default⟩, ⟨.openParen, "(", default⟩,
        ⟨.identifier, "b", default⟩, ⟨.closeParen, ")", default⟩,
        ⟨.returnWord, "return", default⟩]
    let tokens' : List Token :=
      [⟨.semicolon, ";", default⟩, ⟨.identifier, "c", default⟩, ⟨.plusEquals, "+=", default⟩,
        ⟨.identifier, "d", default⟩]
    ∃ r, ofTokens (tokens ++ ⟨.semicolon, ";", default⟩ :: tokens') "" = .ok r ∧
      Stmt.bareList r.body =
        [.whileLoop (.name "a" default) (.branch (.name "b" default) (.return none default) none
            default) default,
          .assign "c" (.combine .add) (some (.name "d" default)) default] := by
  intro tokens tokens'
  have hp : ofTokens tokens "" = .ok ⟨[.whileLoop (.name "a" default) (.branch
    (.name "b" default) (.return none default) none default) default], default⟩ := rfl
  have hq : ofTokens tokens' "" = .ok
    ⟨[.assign "c" (.combine .add) (some (.name "d" default)) default], default⟩ := rfl
  exact ofTokens_joined (by decide) (by decide) rfl hp hq

end Program

end ScriptLang
