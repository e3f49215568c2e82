import ScriptLang.Proofs.Token.Scanning
import ScriptLang.Proofs.Tree.Moved
import ScriptLang.Proofs.Tree.Nesting

/-!
# Slices of a source

From the start of a token of a source to the end of a later one, the text alone has the tokens
that the source has there, at their distance from the start of the slice.
-/

namespace ScriptLang.Token

open Lexeme

variable {file : String} {text rest lexeme : List Char} {offset offset' k : Nat}
  {found front behind : List Token} {t : Token} {p : Pattern}

theorem ofLexeme?_move : ofLexeme? file (k + offset) p lexeme =
    (ofLexeme? file offset p lexeme).map (Token.move (.shift k)) := by
  unfold ofLexeme?
  cases value? p lexeme with
  | none => rfl
  | some v =>
    dsimp only [Option.map_some]
    rw [Nat.add_assoc]
    rfl

theorem span_of_ofLexeme? (h : ofLexeme? file offset p lexeme = some t) :
    t.span = ⟨⟨offset, file⟩, ⟨offset + byteLength lexeme, file⟩⟩ := by
  obtain ⟨v, -, rfl⟩ := Option.map_eq_some_iff.mp h
  rfl

theorem byteLength_pos (h : lexeme ≠ []) : 0 < byteLength lexeme := by
  obtain ⟨c, cs, rfl⟩ := List.exists_cons_of_ne_nil h
  have hc := c.utf8Size_pos
  rw [byteLength_cons]
  omega

namespace Scans

/-- What is found stands in order. -/
theorem ascends (h : Scans file rest offset text found) :
    Ascends offset (found.map Token.span) (offset + byteLength text) := by
  induction h with
  | stop => exact Nat.le_refl _
  | @lexeme offset lexeme text p found hf _ ih =>
    rw [byteLength_append, ← Nat.add_assoc]
    cases ht : ofLexeme? file offset p lexeme with
    | none => exact ih.widen (Nat.le_add_right ..) (Nat.le_refl _)
    | some t =>
      have hpos := byteLength_pos (lexeme_ne_nil (List.append_assoc lexeme text rest ▸ hf))
      have hspan := span_of_ofLexeme? ht
      have hlt : offset < offset + byteLength lexeme := Nat.lt_add_of_pos_right hpos
      refine ascends_cons.mpr ?_
      rw [hspan]
      exact ⟨Nat.le_refl _, hlt, ih⟩

/-- What is in front of a token does not matter to it. -/
theorem drop_front (h : Scans file rest offset text found)
    (hfound : found = front ++ t :: behind) :
    ∃ before text', text = before ++ text' ∧ t.span.start = ⟨offset + byteLength before, file⟩ ∧
      Scans file rest (offset + byteLength before) text' (t :: behind) := by
  induction h generalizing front with
  | stop => exact absurd hfound.symm (List.append_ne_nil_of_right_ne_nil _ (List.cons_ne_nil _ _))
  | @lexeme offset lexeme text p found hf hscan ih =>
    -- The token is found in the text behind the lexeme.
    have hbehind {front : List Token} (hfound : found = front ++ t :: behind) :
        ∃ before text', lexeme ++ text = before ++ text' ∧
          t.span.start = ⟨offset + byteLength before, file⟩ ∧
          Scans file rest (offset + byteLength before) text' (t :: behind) := by
      obtain ⟨before, text', rfl, hstart, hs⟩ := ih hfound
      rw [Nat.add_assoc, ← byteLength_append] at hstart hs
      exact ⟨lexeme ++ before, text', (List.append_assoc ..).symm, hstart, hs⟩
    cases ht : ofLexeme? file offset p lexeme with
    | none => exact hbehind (by rwa [ht] at hfound)
    | some u =>
      rw [ht] at hfound
      rcases List.cons_eq_append_iff.mp hfound with ⟨-, htu⟩ | ⟨_, -, hrest⟩
      · obtain ⟨rfl, rfl⟩ := List.cons.inj htu
        have hs := Scans.lexeme hf hscan
        rw [ht] at hs
        exact ⟨[], lexeme ++ text, rfl, congrArg Span.start (span_of_ofLexeme? ht), hs⟩
      · exact hbehind hrest

/-- Nor is what is behind it. -/
theorem take_front (h : Scans file rest offset text found)
    (hfound : found = front ++ t :: behind) :
    ∃ text' after, text = text' ++ after ∧ t.span.stop = ⟨offset + byteLength text', file⟩ ∧
      Scans file (after ++ rest) offset text' (front ++ [t]) := by
  induction h generalizing front with
  | stop => exact absurd hfound.symm (List.append_ne_nil_of_right_ne_nil _ (List.cons_ne_nil _ _))
  | @lexeme offset lexeme text p found hf hscan ih =>
    have hbehind {front : List Token} (hfound : found = front ++ t :: behind) :
        ∃ text' after, lexeme ++ text = text' ++ after ∧
          t.span.stop = ⟨offset + byteLength text', file⟩ ∧
          Scans file (after ++ rest) offset text'
            ((ofLexeme? file offset p lexeme).toList ++ (front ++ [t])) := by
      obtain ⟨text', after, rfl, hstop, hs⟩ := ih hfound
      rw [Nat.add_assoc, ← byteLength_append] at hstop
      refine ⟨lexeme ++ text', after, (List.append_assoc ..).symm, hstop, .lexeme ?_ hs⟩
      rw [← hf]
      simp only [List.append_assoc]
    cases ht : ofLexeme? file offset p lexeme with
    | none =>
      rw [ht] at hfound hbehind
      exact hbehind hfound
    | some u =>
      rw [ht] at hfound hbehind
      rcases List.cons_eq_append_iff.mp hfound with ⟨rfl, htu⟩ | ⟨front, rfl, hrest⟩
      · obtain ⟨rfl, rfl⟩ := List.cons.inj htu
        have hs : Scans file (text ++ rest) offset (lexeme ++ [])
            ((ofLexeme? file offset p lexeme).toList ++ []) :=
          .lexeme (by rw [List.append_nil, ← List.append_assoc]; exact hf) (.stop _)
        rw [ht, List.append_nil] at hs
        exact ⟨lexeme, text, rfl, congrArg Span.stop (span_of_ofLexeme? ht), hs⟩
      · exact hbehind hrest

/-- The same text at the front of a source. -/
theorem unshift (h : Scans file rest offset' text found) (heq : offset' = k + offset) :
    ∃ own, found = own.map (Token.move (.shift k)) ∧ Scans file rest offset text own := by
  induction h generalizing offset with
  | stop => exact ⟨[], rfl, .stop offset⟩
  | @lexeme offset' lexeme text p found hf _ ih =>
    subst heq
    obtain ⟨own, rfl, hs⟩ := ih (Nat.add_assoc ..)
    refine ⟨_, ?_, .lexeme hf hs⟩
    rw [ofLexeme?_move, Option.toList_map, List.map_append]

/-- Tokens of a source that follow one another are those of a slice of it. -/
theorem slice (h : Scans file [] 0 text found) {ts : List Token} {first last : Token}
    (hts : ts <:+: found) (hfirst : ts.head? = some first) (hlast : ts.getLast? = some last) :
    ∃ front slice back own, text = front ++ slice ++ back ∧
      first.span.start = ⟨byteLength front, file⟩ ∧
      last.span.stop = ⟨byteLength front + byteLength slice, file⟩ ∧
      ofSource (String.ofList slice) file = .ok (own ++ [eof file (byteLength slice)]) ∧
      ts = own.map (Token.move (.shift (byteLength front))) := by
  obtain ⟨before, behind, rfl⟩ := hts
  obtain ⟨rest, rfl⟩ := List.head?_eq_some_iff.mp hfirst
  obtain ⟨front, text', rfl, hstart, hs⟩ :=
    h.drop_front (List.append_assoc before (first :: rest) behind)
  obtain ⟨init, hinit⟩ := List.getLast?_eq_some_iff.mp hlast
  have hfound : first :: rest ++ behind = init ++ last :: behind := by
    rw [hinit, List.append_assoc]
    rfl
  obtain ⟨slice, back, rfl, hstop, hs⟩ := hs.take_front hfound
  rw [Nat.zero_add] at hstart hstop hs
  obtain ⟨own, hown, hs⟩ := hs.unshift (Nat.add_zero _).symm
  refine ⟨front, slice, back, own, (List.append_assoc ..).symm, hstart, hstop, ?_, hinit.trans hown⟩
  rw [ofSource, String.toList_ofList, hs.scan_eq, Nat.zero_add]

end Scans

end ScriptLang.Token
