import ScriptLang.Proofs.Computation
import ScriptLang.Proofs.Token.Longest
import ScriptLang.Proofs.Token.Slice

/-!
# A newline between two texts

No match goes on behind a newline that is put at the end of the text, but for white space,
which gives no token, and for a block comment that the text opens and does not close. So the
tokens of two texts with a newline between them are those of the one and then those of the
other, at their distance from the start.
-/

namespace ScriptLang

namespace Lexeme

variable {cs ds : List Char} {n : Nat}

/-! ## What a newline ends -/

/-- A newline at the end of the text ends the front that is measured, whatever follows. -/
def Breaks (f : List Char → Nat) : Prop := ∀ cs ds, f (cs ++ '\n' :: ds) = f cs

theorem Breaks.andThen {f g : List Char → Nat} (hf : Breaks f) (hm : Measures f)
    (hg : Breaks g) : Breaks fun cs => f cs + g (cs.drop (f cs)) := by
  intro cs ds
  dsimp only
  rw [hf, List.drop_append_of_le_length (hm.le cs), hg]

theorem breaks_run {q : Char → Bool} (h : q '\n' = false) : Breaks (run q) := by
  intro cs ds
  induction cs with
  | nil =>
    rw [List.nil_append, run, List.takeWhile_cons_of_neg (by rw [h]; exact Bool.false_ne_true)]
    rfl
  | cons c cs ih =>
    unfold run at ih ⊢
    rw [List.cons_append, List.takeWhile_cons, List.takeWhile_cons]
    split
    · exact congrArg (· + 1) ih
    · rfl

theorem breaks_fractionLength : Breaks fractionLength := by
  intro cs ds
  cases cs with
  | nil => rfl
  | cons c cs =>
    by_cases hc : c = '.'
    · subst hc
      have hdigits : run Char.isDigit (cs ++ '\n' :: ds) = run Char.isDigit cs := breaks_run rfl _ _
      simp only [List.cons_append, fractionLength, hdigits]
    · rw [List.cons_append, fractionLength, fractionLength]
      · exact fun _ h => hc (List.cons.inj h).1
      · exact fun _ h => hc (List.cons.inj h).1

theorem breaks_suffixLength : Breaks suffixLength := by
  intro cs ds
  cases cs with
  | nil => rfl
  | cons c cs =>
    rw [List.cons_append]
    unfold suffixLength
    split <;> simp_all

theorem breaks_numberLength : Breaks numberLength :=
  ((breaks_run rfl).andThen (measures_run _) breaks_fractionLength).andThen
    ((measures_run _).andThen measures_fractionLength) breaks_suffixLength

namespace Pattern

variable {p q : Pattern}

theorem newline_not_mem_front : ∀ p ∈ all, '\n' ∉ p.front := by
  decide

/-- A front without a newline that is found in the longer text is found in the text. -/
theorem front_of_newline {front : List Char} (h : front <+: cs ++ '\n' :: ds)
    (hn : '\n' ∉ front) : front <+: cs := by
  rcases List.prefix_or_prefix_of_prefix h (List.prefix_append cs _) with hpre | ⟨rest, rfl⟩
  · exact hpre
  · obtain ⟨rest', hrest⟩ := (List.prefix_append_right_inj cs).mp h
    cases rest with
    | nil => simp
    | cons c rest =>
      cases hrest
      exact absurd (List.mem_append_right cs List.mem_cons_self) hn

/-- What matches the text matches it with a newline behind to the same length. White space
goes on if it comes to the end of the text. -/
theorem length?_newline (hp : p ∈ all) (h : p.length? cs = some n)
    (hb : p.family ≠ .blank ∨ n < cs.length) : p.length? (cs ++ '\n' :: ds) = some n := by
  have hm := length?_eq_some.mp h
  suffices p.Matches (cs ++ '\n' :: ds) n from length?_eq_some.mpr this
  cases p with
  | blank =>
    obtain ⟨rfl, hpos⟩ := hm
    refine ⟨?_, hpos⟩
    have hlt := hb.resolve_left fun h => h rfl
    rw [run] at hlt
    rw [run, run, List.takeWhile_append, if_neg (Nat.ne_of_lt hlt)]
  | lineComment =>
    obtain ⟨body, rfl, rfl⟩ := hm
    exact ⟨body ++ '\n' :: ds, rfl, congrArg (2 + ·) (breaks_run (by decide) _ _).symm⟩
  | blockComment =>
    obtain ⟨body, m, rfl, hend, rfl⟩ := hm
    exact ⟨body ++ '\n' :: ds, m, rfl, delimits_commentEnd?.append hend, rfl⟩
  | word =>
    obtain ⟨c, body, rfl, hc, rfl⟩ := hm
    exact ⟨c, body ++ '\n' :: ds, rfl, hc, congrArg (1 + ·) (breaks_run (by decide) _ _).symm⟩
  | number =>
    obtain ⟨rfl, hpos⟩ := hm
    exact ⟨(breaks_numberLength _ _).symm, by rwa [breaks_run (by decide)]⟩
  | text =>
    obtain ⟨body, m, rfl, hend, rfl⟩ := hm
    exact ⟨body ++ '\n' :: ds, m, rfl, delimits_quoteEnd?.append hend, rfl⟩
  | sign s =>
    obtain ⟨hs, rfl⟩ := hm
    exact ⟨hs.trans (List.prefix_append cs _), rfl⟩

/-- Whether the match goes on to an end of its own. -/
def isClosed : Pattern → Bool
  | .blockComment | .text => true
  | _ => false

/-- What matches with a newline behind the text matches the text, if it does not go on to an
end of its own. -/
theorem length?_of_newline (hp : p ∈ all) (hne : cs ≠ []) (h : p.length? (cs ++ '\n' :: ds) = some n)
    (hc : p.isClosed = false) : ∃ m, p.length? cs = some m := by
  have hm := length?_eq_some.mp h
  have hfront := front_of_newline (length?_front h).1 (newline_not_mem_front p hp)
  suffices ∃ m, p.Matches cs m from this.imp fun m => length?_eq_some.mpr
  cases p with
  | blank =>
    obtain ⟨rfl, hpos⟩ := hm
    obtain ⟨c, cs, rfl⟩ := List.exists_cons_of_ne_nil hne
    refine ⟨_, rfl, ?_⟩
    rw [run, List.takeWhile_cons_of_pos (of_run_pos hpos)]
    exact Nat.succ_pos _
  | lineComment =>
    obtain ⟨body, rfl⟩ := hfront
    exact ⟨_, body, rfl, rfl⟩
  | word =>
    obtain ⟨c, body, heq, hc, rfl⟩ := hm
    obtain ⟨d, cs, rfl⟩ := List.exists_cons_of_ne_nil hne
    cases heq
    exact ⟨_, c, cs, rfl, hc, rfl⟩
  | number =>
    obtain ⟨rfl, hpos⟩ := hm
    rw [breaks_run (by decide)] at hpos
    exact ⟨_, rfl, hpos⟩
  | sign s => exact ⟨_, hfront, rfl⟩
  | blockComment | text => cases hc

/-- What matches where a comment is opened is the comment, or the sign `/` alone. -/
theorem of_opened (hp : p ∈ all) (h : p.length? ('/' :: '*' :: cs) = some n) :
    p = .blockComment ∨ p = .sign ['/'] .slash := by
  have hmem : p ∈ [.lineComment, .blockComment, .sign ['/', '='] .slashEquals,
      .sign ['/'] .slash] := mem_beginning hp h (by decide)
  obtain ⟨hfront, -⟩ := length?_front h
  simp only [List.mem_cons, List.not_mem_nil, or_false] at hmem
  rcases hmem with rfl | rfl | rfl | rfl
  · exact absurd (List.cons_prefix_cons.mp (List.cons_prefix_cons.mp hfront).2).1 (by decide)
  · exact .inl rfl
  · exact absurd (List.cons_prefix_cons.mp (List.cons_prefix_cons.mp hfront).2).1 (by decide)
  · exact .inr rfl

/-- A star begins one of two signs. -/
theorem of_star (hp : p ∈ all) (h : p.length? ('*' :: cs) = some n) :
    p = .sign ['*', '='] .starEquals ∨ p = .sign ['*'] .star := by
  have hmem : p ∈ [.sign ['*', '='] .starEquals, .sign ['*'] .star] :=
    mem_beginning hp h (by decide)
  simpa only [List.mem_cons, List.not_mem_nil, or_false] using hmem

end Pattern

/-- With a newline behind the text, what matches first is the same, if it is no white space
and no comment is opened that the text does not close. -/
theorem first?_newline {p : Pattern} (h : first? cs = some (p, n))
    (hc : ['/', '*'] <+: cs → p = .blockComment) (hb : p.family ≠ .blank) (ds : List Char) :
    first? (cs ++ '\n' :: ds) = some (p, n) := by
  obtain ⟨hp, hn⟩ := first?_mem h
  have hne : cs ≠ [] := by
    rintro rfl
    exact absurd (Pattern.length?_le hn) (Nat.not_le_of_gt (Pattern.length?_pos hp hn))
  refine first?_of_le hp (Pattern.length?_newline hp hn (.inl hb)) fun q hq m hm => ?_
  -- What matches the longer text matches the text: a string or a comment that it does not
  -- close would have been met first.
  obtain ⟨k, hk⟩ : ∃ k, q.length? cs = some k := by
    cases hclosed : q.isClosed with
    | false => exact Pattern.length?_of_newline hq hne hm hclosed
    | true =>
      have hfront := Pattern.front_of_newline (Pattern.length?_front hm).1
        (Pattern.newline_not_mem_front q hq)
      suffices q = p from ⟨n, this ▸ hn⟩
      cases q with
      | blockComment => exact (hc hfront).symm
      | text =>
        obtain ⟨body, rfl⟩ := hfront
        exact (Pattern.eq_text_of_quote hp hn).symm
      | _ => cases hclosed
  rcases lt_of_first? h hq hk with ⟨rfl, rfl⟩ | hlt
  · rw [Pattern.length?_newline hq hk (.inl hb)] at hm
    cases hm
    exact Nat.le_refl _
  · have hshort : k < cs.length := Nat.lt_of_lt_of_le hlt (Pattern.length?_le hn)
    rw [Pattern.length?_newline hq hk (.inr hshort)] at hm
    cases hm
    exact Nat.le_of_lt hlt

end Lexeme

/-- The fault at another place. -/
def Fault.move (f : Position → Position) (e : Fault) : Fault := { e with position := f e.position }

namespace Token

open Lexeme

variable {file : String} {cs ds text rest blanks : List Char} {offset : Nat} {found : List Token}

/-! ## White space -/

theorem scan_run (cs : List Char) (offset : Nat) : scan file cs offset =
    scan file (cs.dropWhile Text.isBlank) (offset + byteLength (cs.takeWhile Text.isBlank)) := by
  have hcs : cs.takeWhile Text.isBlank ++ cs.dropWhile Text.isBlank = cs :=
    List.takeWhile_append_dropWhile
  by_cases hrun : run Text.isBlank cs = 0
  · have hnil : cs.takeWhile Text.isBlank = [] := List.length_eq_zero_iff.mp hrun
    rw [hnil, List.nil_append] at hcs
    rw [hnil, hcs]
    rfl
  · have hl : Pattern.blank.length? cs = some (run Text.isBlank cs) := if_neg hrun
    have hf : first? (cs.takeWhile Text.isBlank ++ cs.dropWhile Text.isBlank) =
        some (.blank, (cs.takeWhile Text.isBlank).length) := by
      rw [hcs, first?, Pattern.all, List.findSome?_cons, hl]
      rfl
    conv => lhs; rw [← hcs, scan_lexeme hf]
    cases scan file (cs.dropWhile Text.isBlank)
      (offset + byteLength (cs.takeWhile Text.isBlank)) <;> rfl

theorem scan_blank {c : Char} (hc : Text.isBlank c = true) (offset : Nat) :
    scan file (c :: cs) offset = scan file cs (offset + c.utf8Size) := by
  rw [scan_run (c :: cs), scan_run cs, List.takeWhile_cons_of_pos hc,
    List.dropWhile_cons_of_pos hc, byteLength_cons, Nat.add_assoc]

/-- White space in front of a text gives no token. -/
theorem scan_blanks (h : ∀ c ∈ blanks, Text.isBlank c = true) (offset : Nat) :
    scan file (blanks ++ cs) offset = scan file cs (offset + byteLength blanks) := by
  induction blanks generalizing offset with
  | nil => rfl
  | cons c blanks ih =>
    obtain ⟨hc, h⟩ := List.forall_mem_cons.mp h
    rw [List.cons_append, scan_blank hc, ih h, byteLength_cons, Nat.add_assoc]

/-! ## A text at another place -/

theorem Scans.scan_append (h : Scans file rest offset text found) :
    scan file (text ++ rest) offset =
      (scan file rest (offset + byteLength text)).map (found ++ ·) := by
  induction h with
  | stop offset =>
    rw [List.nil_append, byteLength_nil, Nat.add_zero]
    cases scan file rest offset <;> rfl
  | @lexeme offset lexeme text p found hf _ ih =>
    rw [List.append_assoc] at hf ⊢
    rw [scan_lexeme hf, ih, byteLength_append, Nat.add_assoc]
    cases scan file rest (offset + (byteLength lexeme + byteLength text)) with
    | error f => rfl
    | ok tokens => simp [Except.map]

theorem scan_of_none {c : Char} (h : first? (c :: rest) = none) (offset : Nat) :
    scan file (c :: rest) offset = .error ⟨.unrecognisedToken c.toString, ⟨offset, file⟩⟩ := by
  rw [scan.eq_def]
  dsimp only
  rw [h]

/-- What a scan finds further on in a source, or the fault it meets there. -/
def shifted (k : Nat) : Except Fault (List Token) → Except Fault (List Token)
  | .ok tokens => .ok (tokens.map (Token.move (.shift k)))
  | .error fault => .error (fault.move (.shift k))

theorem scan_shift (cs : List Char) (offset k : Nat) :
    scan file cs (k + offset) = shifted k (scan file cs offset) := by
  rcases scan_cases file cs (k + offset) with
    ⟨found, hscan, hs⟩ | ⟨text, c, rest, found, rfl, hscan, hnone, hs⟩
  · obtain ⟨own, rfl, hown⟩ := hscan.unshift rfl
    rw [hs, hown.scan_eq, shifted, List.map_append, Nat.add_assoc]
    rfl
  · obtain ⟨own, -, hown⟩ := hscan.unshift rfl
    rw [hs, hown.scan_append, scan_of_none hnone, Nat.add_assoc]
    rfl

/-! ## Two texts -/

/-- No `/` stands right in front of `*` or `*=`, as it does where a text opens a comment that
it does not close. -/
def ClosesComments (tokens : List Token) : Prop :=
  ∀ t u, [t, u] <:+: tokens → t.kind = .slash → u.kind = .star ∨ u.kind = .starEquals →
    t.span.stop ≠ u.span.start

theorem Scans.of_star (h : Scans file rest offset ('*' :: text) found) :
    ∃ u us, found = u :: us ∧ (u.kind = .star ∨ u.kind = .starEquals) ∧
      u.span.start = ⟨offset, file⟩ := by
  generalize hcs : '*' :: text = cs at h
  cases h with
  | stop => cases hcs
  | @lexeme _ lexeme text p found hf hscan =>
    rw [← hcs] at hf
    obtain ⟨hp, hn⟩ := first?_mem hf
    rcases Pattern.of_star hp hn with rfl | rfl
    · exact ⟨_, found, rfl, .inr rfl, rfl⟩
    · exact ⟨_, found, rfl, .inl rfl, rfl⟩

/-- A comment that is opened is closed. -/
theorem ClosesComments.closed {lexeme : List Char} {p : Pattern}
    (hf : first? (lexeme ++ text) = some (p, lexeme.length))
    (hscan : Scans file [] (offset + byteLength lexeme) text found)
    (hs : ClosesComments ((ofLexeme? file offset p lexeme).toList ++ found))
    (hopens : ['/', '*'] <+: lexeme ++ text) : p = .blockComment := by
  obtain ⟨hp, hn⟩ := first?_mem hf
  obtain ⟨body, hbody⟩ := hopens
  rw [← hbody] at hn
  refine (Pattern.of_opened hp hn).resolve_right ?_
  rintro rfl
  have hlength : lexeme.length = 1 := Pattern.length?_of_isSign rfl hn
  obtain ⟨c, rfl⟩ := List.length_eq_one_iff.mp hlength
  cases hbody
  obtain ⟨u, us, rfl, hkind, hstart⟩ := hscan.of_star
  exact hs _ u ⟨[], us, rfl⟩ rfl hkind hstart.symm

/-- The tokens of a text in front of a newline do not depend on what is behind it. -/
theorem Scans.scan_newline (h : Scans file [] offset text found) (hs : ClosesComments found) :
    scan file (text ++ '\n' :: ds) offset =
      (scan file ds (offset + byteLength text + 1)).map (found ++ ·) := by
  induction h with
  | stop offset =>
    have hsize : '\n'.utf8Size = 1 := by decide
    rw [List.nil_append, scan_blank (by decide), hsize, byteLength_nil, Nat.add_zero]
    cases scan file ds (offset + 1) <;> rfl
  | @lexeme offset lexeme text p found hf hscan ih =>
    have hrest := ih fun t u htu => hs t u (htu.trans (List.suffix_append _ _).isInfix)
    rw [List.append_nil] at hf
    rw [List.append_assoc, byteLength_append, ← Nat.add_assoc]
    by_cases hp : p.family = .blank
    · -- White space may go on behind the newline, but gives no token.
      cases p with
      | blank =>
        have hrun := (Pattern.length?_eq_some.mp (first?_mem hf).2).1
        rw [scan_blanks (run_eq_length hrun).1]
        exact hrest
      | _ => cases hp
    · have hnext := first?_newline hf (hs.closed hf hscan) hp ds
      rw [List.append_assoc] at hnext
      rw [scan_lexeme hnext, hrest]
      cases scan file ds (offset + byteLength lexeme + byteLength text + 1) with
      | error f => rfl
      | ok tokens => simp [Except.map]

/-- With a newline between two sources, the tokens are those of the first without its end and
then those of the second, at their distance from the start; if the second has none, the fault
is the same, at its distance. In the first source, no comment may be open at the end. -/
theorem ofSource_newline {first second file : String} {tokens : List Token}
    (h : ofSource first file = .ok tokens) (hclosed : ClosesComments tokens) :
    ofSource (first ++ "\n" ++ second) file =
      match ofSource second file with
      | .ok behind => .ok (tokens.dropLast ++
          behind.map (Token.move (.shift (byteLength first.toList + 1))))
      | .error fault => .error (fault.move (.shift (byteLength first.toList + 1))) := by
  rcases scan_cases file first.toList 0 with ⟨found, hscan, hs⟩ | ⟨_, _, _, _, -, -, -, hs⟩
  · rw [ofSource, hs, Nat.zero_add] at h
    cases h
    have hfound : ClosesComments found := fun t u htu =>
      hclosed t u (htu.trans (List.prefix_append _ _).isInfix)
    have hsource : (first ++ "\n" ++ second).toList = first.toList ++ '\n' :: second.toList := by
      simp
    rw [ofSource, hsource, hscan.scan_newline hfound, Nat.zero_add, ← Nat.add_zero (_ + 1),
      scan_shift, List.dropLast_concat, ofSource]
    cases scan file second.toList 0 <;> rfl
  · rw [ofSource, hs] at h
    cases h

/-- The newline ends a line comment with a quote in it. The star behind the sign `/` stands
apart from it, so no comment is open that the second source could close. -/
theorem ofSource_newline_comment :
    let first := "a / * \"é\" // \"b"
    let tokens : List Token := [⟨.identifier, "a", ⟨⟨0, "f"⟩, ⟨1, "f"⟩⟩⟩,
      ⟨.slash, "/", ⟨⟨2, "f"⟩, ⟨3, "f"⟩⟩⟩, ⟨.star, "*", ⟨⟨4, "f"⟩, ⟨5, "f"⟩⟩⟩,
      ⟨.string, "é", ⟨⟨6, "f"⟩, ⟨10, "f"⟩⟩⟩, eof "f" 16]
    ofSource first "f" = .ok tokens ∧ ClosesComments tokens ∧
      ofSource (first ++ "\n" ++ "*/ c") "f" = .ok (tokens.dropLast ++
        [⟨.star, "*", ⟨⟨17, "f"⟩, ⟨18, "f"⟩⟩⟩, ⟨.slash, "/", ⟨⟨18, "f"⟩, ⟨19, "f"⟩⟩⟩,
          ⟨.identifier, "c", ⟨⟨20, "f"⟩, ⟨21, "f"⟩⟩⟩, eof "f" 21]) := by
  intro first tokens
  have hfirst : (ofSource first "f").toOption.any (fun ts => ts = tokens) = true := by
    decide +kernel
  have hsecond : (ofSource "*/ c" "f").toOption.any (fun ts => ts =
      [⟨.star, "*", ⟨⟨0, "f"⟩, ⟨1, "f"⟩⟩⟩, ⟨.slash, "/", ⟨⟨1, "f"⟩, ⟨2, "f"⟩⟩⟩,
        ⟨.identifier, "c", ⟨⟨3, "f"⟩, ⟨4, "f"⟩⟩⟩, eof "f" 4]) = true := by
    decide +kernel
  obtain ⟨ts, hfirst, hts⟩ := exists_of_any hfirst
  obtain ⟨us, hsecond, hus⟩ := exists_of_any hsecond
  rw [of_decide_eq_true hts] at hfirst
  rw [of_decide_eq_true hus] at hsecond
  have hclosed : ClosesComments tokens := by
    intro t u htu
    simp only [tokens, List.infix_cons_iff, List.cons_prefix_cons, List.prefix_nil,
      List.infix_nil, List.cons_ne_nil, and_false, or_false, List.nil_prefix, and_true] at htu
    rcases htu with ⟨rfl, rfl⟩ | ⟨rfl, rfl⟩ | ⟨rfl, rfl⟩ | ⟨rfl, rfl⟩ <;> decide
  have hlength : byteLength first.toList + 1 = 17 := by decide +kernel
  have hjoined : ofSource (first ++ "\n" ++ "*/ c") "f" = _ := ofSource_newline hfirst hclosed
  rw [hsecond, hlength] at hjoined
  exact ⟨hfirst, hclosed, hjoined⟩

end Token

end ScriptLang
