import ScriptLang.Proofs.Token.Pattern

/-!
# What the tokens of a source are

Tokens and what separates them tile the source, and each token is what its own text gives.
A source that has no tokens has a character where no pattern matches, and the source in
front of it has the tokens that were found.
-/

namespace ScriptLang

open Lexeme

/-- White space and comments in front of what follows. A line comment ends in front of a
newline or at the end of the source, a block comment at the first `*/` in it. -/
inductive Separates : List Char → List Char → Prop
  | nil (rest : List Char) : Separates [] rest
  | blank {c : Char} {gap rest : List Char} : Text.isBlank c = true → Separates gap rest →
    Separates (c :: gap) rest
  | lineComment {body gap rest : List Char} : '\n' ∉ body →
    (gap ++ rest = [] ∨ (gap ++ rest).head? = some '\n') → Separates gap rest →
    Separates ('/' :: '/' :: body ++ gap) rest
  | blockComment {comment gap rest : List Char} : EndsComment comment → Separates gap rest →
    Separates ('/' :: '*' :: comment ++ gap) rest

namespace Token

variable {file : String} {cs text rest lexeme : List Char} {offset : Nat} {found : List Token}
  {p : Pattern}

/-- The token at the end of a source. -/
def eof (file : String) (offset : Nat) : Token := ⟨.eof, "EOF", ⟨⟨offset, file⟩, ⟨offset, file⟩⟩⟩

/-- The token of a lexeme, if it has one. -/
def ofLexeme? (file : String) (offset : Nat) (p : Pattern) (lexeme : List Char) : Option Token :=
  (value? p lexeme).map fun v =>
    ⟨v.1, String.ofList v.2, ⟨⟨offset, file⟩, ⟨offset + byteLength lexeme, file⟩⟩⟩

/-- Alone in a source, the lexeme is one token of the same kind and value. -/
def Alone (file : String) (lexeme : List Char) (t : Token) : Prop :=
  ofSource (String.ofList lexeme) file =
    .ok [{ t with span := ⟨⟨0, file⟩, ⟨byteLength lexeme, file⟩⟩ }, eof file (byteLength lexeme)]

/-- The tokens have their lexemes at their spans in the text, which stands at the offset in
front of the rest, and separators between them. -/
inductive Tiles (file : String) (rest : List Char) : Nat → List Char → List Token → Prop
  | gap {offset : Nat} {gap : List Char} : Separates gap rest → Tiles file rest offset gap []
  | token {offset start stop : Nat} {gap lexeme text : List Char} {t : Token}
      {ts : List Token} :
    Separates gap (lexeme ++ text ++ rest) → start = offset + byteLength gap → lexeme ≠ [] →
    stop = start + byteLength lexeme → t.span = ⟨⟨start, file⟩, ⟨stop, file⟩⟩ →
    Alone file lexeme t → Tiles file rest stop text ts →
    Tiles file rest offset (gap ++ lexeme ++ text) (t :: ts)

/-- The lexemes that are found one behind the other, and their tokens, in a text at the
offset in front of the rest. -/
inductive Scans (file : String) (rest : List Char) : Nat → List Char → List Token → Prop
  | stop (offset : Nat) : Scans file rest offset [] []
  | lexeme {offset : Nat} {lexeme text : List Char} {p : Pattern} {found : List Token} :
    first? (lexeme ++ text ++ rest) = some (p, lexeme.length) →
    Scans file rest (offset + byteLength lexeme) text found →
    Scans file rest offset (lexeme ++ text) ((ofLexeme? file offset p lexeme).toList ++ found)

/-! ## Steps of the scan -/

theorem scan_nil (file : String) (offset : Nat) : scan file [] offset = .ok [eof file offset] := by
  unfold scan
  rfl

theorem lexeme_ne_nil (h : first? (lexeme ++ rest) = some (p, lexeme.length)) : lexeme ≠ [] := by
  obtain ⟨hp, hn⟩ := first?_mem h
  exact List.length_pos_iff.mp (Pattern.length?_pos hp hn)

/-- The lexeme at the front is taken off. -/
theorem scan_lexeme (h : first? (lexeme ++ rest) = some (p, lexeme.length)) (offset : Nat) :
    scan file (lexeme ++ rest) offset =
      (scan file rest (offset + byteLength lexeme)).map
        ((ofLexeme? file offset p lexeme).toList ++ ·) := by
  obtain ⟨c, cs, rfl⟩ := List.exists_cons_of_ne_nil (lexeme_ne_nil h)
  rw [List.cons_append] at h ⊢
  rw [scan.eq_def]
  dsimp only
  rw [h]
  have htake : (cs ++ rest).take ((c :: cs).length - 1) = cs := List.take_left
  have hdrop : (cs ++ rest).drop ((c :: cs).length - 1) = rest := List.drop_left
  dsimp only
  rw [htake, hdrop, ofLexeme?]
  cases scan file rest (offset + byteLength (c :: cs)) with
  | error f => rfl
  | ok tokens => cases value? p (c :: cs) <;> rfl

theorem exists_lexeme {n : Nat} (h : first? cs = some (p, n)) :
    ∃ lexeme rest, cs = lexeme ++ rest ∧ n = lexeme.length := by
  have hn := Pattern.length?_le (first?_mem h).2
  exact ⟨cs.take n, cs.drop n, (List.take_append_drop n cs).symm,
    (List.length_take_of_le hn).symm⟩

/-- A scan comes to the end of the text, or to a character where no pattern matches. -/
theorem scan_cases (file : String) (cs : List Char) (offset : Nat) :
    (∃ found, Scans file [] offset cs found ∧
      scan file cs offset = .ok (found ++ [eof file (offset + byteLength cs)])) ∨
    ∃ text c rest found, cs = text ++ c :: rest ∧ Scans file (c :: rest) offset text found ∧
      first? (c :: rest) = none ∧
      scan file cs offset =
        .error ⟨.unrecognisedToken c.toString, ⟨offset + byteLength text, file⟩⟩ := by
  match cs with
  | [] => exact .inl ⟨[], .stop offset, scan_nil file offset⟩
  | c :: cs =>
    cases hf : first? (c :: cs) with
    | none =>
      refine .inr ⟨[], c, cs, [], rfl, .stop offset, hf, ?_⟩
      rw [scan.eq_def]
      dsimp only
      rw [hf]
      rfl
    | some found =>
      obtain ⟨p, n⟩ := found
      obtain ⟨lexeme, rest, heq, rfl⟩ := exists_lexeme hf
      have hlength := congrArg List.length heq
      rw [heq] at hf
      have hpos := List.length_pos_iff.mpr (lexeme_ne_nil hf)
      rw [heq, scan_lexeme hf]
      rcases scan_cases file rest (offset + byteLength lexeme) with
        ⟨found, hscan, hs⟩ | ⟨text, d, after, found, rfl, hscan, hnone, hs⟩
      · refine .inl ⟨_, .lexeme (by rwa [List.append_nil]) hscan, ?_⟩
        rw [hs]
        simp [Except.map, Nat.add_assoc]
      · refine .inr ⟨lexeme ++ text, d, after, _, (List.append_assoc ..).symm,
          .lexeme (by rwa [List.append_assoc]) hscan, hnone, ?_⟩
        rw [hs]
        simp [Except.map, Nat.add_assoc]
termination_by cs.length
decreasing_by
  rw [List.length_append] at hlength
  omega

/-- A scan of the text alone, with nothing behind it, finds the same. -/
theorem Scans.scan_eq (h : Scans file rest offset text found) :
    scan file text offset = .ok (found ++ [eof file (offset + byteLength text)]) := by
  induction h with
  | stop offset => exact scan_nil file offset
  | lexeme hf _ ih =>
    rw [scan_lexeme (first?_of_append hf (by simp)), ih]
    simp [Except.map, Nat.add_assoc]

/-! ## Separators -/

theorem run_eq_length {q : Char → Bool} (h : lexeme.length = run q (lexeme ++ rest)) :
    (∀ c ∈ lexeme, q c = true) ∧ ∀ c ∈ rest.head?, q c = false := by
  have htake := take_run q (lexeme ++ rest)
  have hdrop := drop_run q (lexeme ++ rest)
  rw [← h, List.take_left] at htake
  rw [← h, List.drop_left] at hdrop
  constructor
  · intro c hc
    rw [htake] at hc
    exact List.all_eq_true.mp List.all_takeWhile c hc
  · intro c hc
    have hnot := List.head?_dropWhile_not q (lexeme ++ rest)
    rw [← hdrop, hc] at hnot
    exact hnot

theorem separates_blanks {gap : List Char} (h : Separates gap rest) :
    ∀ {blanks : List Char}, (∀ c ∈ blanks, Text.isBlank c = true) → Separates (blanks ++ gap) rest
  | [], _ => h
  | _ :: _, hb => .blank (List.forall_mem_cons.mp hb).1 (separates_blanks h (List.forall_mem_cons.mp hb).2)

/-- What is matched and gives no token separates. -/
theorem separates_lexeme {gap : List Char} (h : Separates gap rest)
    (hl : p.length? (lexeme ++ (gap ++ rest)) = some lexeme.length)
    (hv : value? p lexeme = none) : Separates (lexeme ++ gap) rest := by
  have hm := Pattern.length?_eq_some.mp hl
  cases p with
  | blank =>
    obtain ⟨hrun, -⟩ := hm
    exact separates_blanks h (run_eq_length hrun).1
  | lineComment =>
    obtain ⟨body', heq, hrun⟩ := hm
    obtain ⟨body, rfl, rfl⟩ := front_of_append ['/', '/'] heq (by simp; omega)
    have hbody : body.length = run (· ≠ '\n') (body ++ (gap ++ rest)) := by simp at hrun ⊢; omega
    obtain ⟨hin, hend⟩ := run_eq_length hbody
    refine .lineComment (fun hmem => by simpa using hin _ hmem) ?_ h
    cases hrest : gap ++ rest with
    | nil => exact .inl rfl
    | cons c cs =>
      rw [hrest] at hend
      exact .inr (congrArg some (by simpa using hend c rfl))
  | blockComment =>
    obtain ⟨body', m, heq, hend, hm⟩ := hm
    obtain ⟨comment, rfl, rfl⟩ := front_of_append ['/', '*'] heq (by simp; omega)
    obtain rfl : m = comment.length := by simp at hm; omega
    have hcomment := delimits_commentEnd?.of_append hend (Nat.le_refl _)
    obtain ⟨closed, behind, heq', hlength, hclosed⟩ := (delimits_commentEnd? _ _).mp hcomment
    rw [heq', List.length_append] at hlength
    obtain rfl : behind = [] := List.length_eq_zero_iff.mp (by omega)
    rw [List.append_nil] at heq'
    exact .blockComment (heq' ▸ hclosed) h
  | word | number | text | sign => cases hv

/-! ## Tiles -/

/-- Without what stands behind it, a lexeme is found as it is in the text. -/
theorem alone_of_first? {t : Token} (h : first? (lexeme ++ rest) = some (p, lexeme.length))
    (ht : ofLexeme? file offset p lexeme = some t) : Alone file lexeme t := by
  have hf : first? (lexeme ++ []) = some (p, lexeme.length) := by
    rw [List.append_nil]
    exact first?_of_append h (Nat.le_refl _)
  obtain ⟨v, hv, rfl⟩ := Option.map_eq_some_iff.mp ht
  have hs : scan file (lexeme ++ []) 0 = _ := scan_lexeme hf 0
  rw [List.append_nil, scan_nil, ofLexeme?, hv] at hs
  rw [Alone, ofSource, String.toList_ofList, hs]
  simp [Except.map]

/-- What is matched in front of tiles and gives no token joins the first separator. -/
theorem Tiles.separated (h : Tiles file rest (offset + byteLength lexeme) text found)
    (hl : p.length? (lexeme ++ text ++ rest) = some lexeme.length) (hv : value? p lexeme = none) :
    Tiles file rest offset (lexeme ++ text) found := by
  cases h with
  | gap hg => exact .gap (separates_lexeme hg (by rwa [← List.append_assoc]) hv)
  | token hg hstart hne hstop hspan halone hts =>
    simp only [← List.append_assoc]
    refine .token (separates_lexeme hg ?_ hv) ?_ hne hstop hspan halone hts
    · simpa only [List.append_assoc] using hl
    · rw [hstart, byteLength_append, Nat.add_assoc]

/-- Lexemes found one behind the other are tiles. -/
theorem Scans.tiles (h : Scans file rest offset text found) :
    Tiles file rest offset text found := by
  induction h with
  | stop => exact .gap (.nil rest)
  | @lexeme offset lexeme text p found hf _ ih =>
    obtain ⟨-, hl⟩ := first?_mem hf
    rw [List.append_assoc] at hf
    cases ht : ofLexeme? file offset p lexeme with
    | none => exact ih.separated hl (Option.map_eq_none_iff.mp ht)
    | some t =>
      have halone := alone_of_first? hf ht
      obtain ⟨v, -, rfl⟩ := Option.map_eq_some_iff.mp ht
      exact .token (.nil _) rfl (lexeme_ne_nil hf) rfl rfl halone ih

/-- A token that lies in a text on characters of it, and is what they give alone. -/
def LiesIn (file : String) (cs : List Char) (offset : Nat) (t : Token) : Prop :=
  ∃ before lexeme after, cs = before ++ lexeme ++ after ∧ lexeme ≠ [] ∧
    t.span = ⟨⟨offset + byteLength before, file⟩,
      ⟨offset + byteLength (before ++ lexeme), file⟩⟩ ∧ Alone file lexeme t

theorem Tiles.liesIn (h : Tiles file rest offset text found) :
    ∀ t ∈ found, t.LiesIn file text offset := by
  induction h with
  | gap => exact nofun
  | @token offset start stop gap lexeme text t ts _ hstart hne hstop hspan halone _ ih =>
    refine List.forall_mem_cons.mpr ⟨⟨gap, lexeme, text, rfl, hne, ?_, halone⟩, fun u hu => ?_⟩
    · rw [hspan, hstop, hstart, byteLength_append, Nat.add_assoc]
    · obtain ⟨before, lexeme', after, rfl, hne', hspan', halone'⟩ := ih u hu
      refine ⟨gap ++ lexeme ++ before, lexeme', after, by simp only [List.append_assoc], hne', ?_,
        halone'⟩
      rw [hspan', hstop, hstart]
      simp only [byteLength_append, Nat.add_assoc]

theorem Tiles.ordered (h : Tiles file rest offset text found) :
    found.Pairwise (fun t u => t.span.stop.offset ≤ u.span.start.offset) := by
  induction h with
  | gap => exact .nil
  | @token offset start stop gap lexeme text t ts _ _ _ _ hspan _ hts ih =>
    refine .cons (fun u hu => ?_) ih
    obtain ⟨before, lexeme', after, -, -, hspan', -⟩ := hts.liesIn u hu
    rw [hspan, hspan']
    exact Nat.le_add_right _ _

/-- The tokens of a source lie in it in order and apart, each on characters that give it
alone, with separators between them, and behind them the end of the source. A source
without tokens has a character where no pattern matches, and what stands before it has the
tokens that were found. -/
theorem tiles_ofSource (source file : String) :
    match ofSource source file with
    | .ok tokens => ∃ found,
        tokens = found ++ [eof file (byteLength source.toList)] ∧
        found.Pairwise (fun t u => t.span.stop.offset ≤ u.span.start.offset) ∧
        (∀ t ∈ found, t.LiesIn file source.toList 0) ∧
        Tiles file [] 0 source.toList found
    | .error fault => ∃ before c after found,
        source.toList = before ++ c :: after ∧
        fault = ⟨.unrecognisedToken c.toString, ⟨byteLength before, file⟩⟩ ∧
        (∀ p ∈ Pattern.all, p.length? (c :: after) = none) ∧
        Scans file (c :: after) 0 before found ∧
        ofSource (String.ofList before) file =
          .ok (found ++ [eof file (byteLength before)]) := by
  rcases scan_cases file source.toList 0 with
    ⟨found, hscan, hs⟩ | ⟨before, c, after, found, hsource, hscan, hnone, hs⟩
  · rw [ofSource, hs]
    have htiles := hscan.tiles
    exact ⟨found, by rw [Nat.zero_add], htiles.ordered, htiles.liesIn, htiles⟩
  · rw [ofSource, hs]
    refine ⟨before, c, after, found, hsource, by rw [Nat.zero_add], first?_eq_none.mp hnone,
      hscan, ?_⟩
    rw [ofSource, String.toList_ofList, hscan.scan_eq, Nat.zero_add]

end Token

end ScriptLang
