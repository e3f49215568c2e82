import ScriptLang.Proofs.Grammar.Locality
import ScriptLang.Proofs.Tree.Nesting

/-!
# Cursors stand between tokens

The tokens of a source stand one behind the other, and so do the trees that rules make of
them. What a rule reads on its way is kept as a list of spans between two cursors, with what
is known of the trees that have them; rules that follow one another have their lists appended.
-/

namespace ScriptLang

/-- The tokens ahead end a list of tokens, and stand in order behind what was consumed last. -/
structure Cursor.Stands (tokens : List Token) (c : Cursor) : Prop where
  suffix : c.pending <:+ tokens
  ascends : Ascends c.lastEnd.offset (c.pending.map Token.span) c.endSpan.start.offset

variable {tokens : List Token} {c c₁ c' : Cursor}

/-- What is known of the tokens up to some place is known of those in front and behind it. -/
theorem ascends_tokens {ts us : List Token} {p : Position} {high : Nat}
    (h : Ascends p.offset ((ts ++ us).map Token.span) high) :
    Ascends p.offset (ts.map Token.span) (ts.foldl (fun _ t => t.span.stop) p).offset ∧
      Ascends (ts.foldl (fun _ t => t.span.stop) p).offset (us.map Token.span) high := by
  induction ts generalizing p with
  | nil => exact ⟨Nat.le_refl _, h⟩
  | cons t ts ih =>
    obtain ⟨hstart, ht, h⟩ := h
    obtain ⟨hts, hus⟩ := ih h
    exact ⟨⟨hstart, ht, hts⟩, hus⟩

namespace Cursor

theorem lastEnd_next (h : c.current.kind ≠ .eof) : c.next.lastEnd = c.current.span.stop :=
  (passes_next (by rw [pending_eq h]; exact List.cons_ne_nil _ _)).lastEnd

/-- Where the tokens that are passed start and end. -/
theorem Passes.ends {ts : List Token} (h : c.Passes ts c') (hts : ts ≠ []) :
    ∃ first last, ts.head? = some first ∧ ts.getLast? = some last ∧
      c.position = first.span.start ∧ c'.lastEnd = last.span.stop := by
  obtain ⟨first, rest, rfl⟩ := List.exists_cons_of_ne_nil hts
  refine ⟨first, _, rfl, List.getLast?_eq_some_getLast hts, ?_, ?_⟩
  · rw [position, current, peek, h.pending]
    rfl
  · have hlast := h.lastEnd
    rw [← List.dropLast_concat_getLast hts, List.foldl_append] at hlast
    exact hlast

namespace Stands

variable {n : Nat} (h : c.Stands tokens)

include h

theorem upto (hu : c.Upto n c') : c'.Stands tokens := by
  obtain ⟨ts, -, hts⟩ := hu
  have hascends := h.ascends
  rw [hts.pending] at hascends
  constructor
  · exact (List.suffix_append ts c'.pending).trans (hts.pending ▸ h.suffix)
  · rw [hts.lastEnd, hts.endSpan]
    exact (ascends_tokens hascends).2

theorem passed {ts : List Token} (hts : c.Passes ts c') :
    Ascends c.lastEnd.offset (ts.map Token.span) c'.lastEnd.offset := by
  have hascends := h.ascends
  rw [hts.pending] at hascends
  rw [hts.lastEnd]
  exact (ascends_tokens hascends).1

theorem le (hu : c.Upto n c') : c.lastEnd.offset ≤ c'.lastEnd.offset := by
  obtain ⟨ts, -, hts⟩ := hu
  exact (h.passed hts).le

theorem le_position : c.lastEnd.offset ≤ c.position.offset := by
  have hascends := h.ascends
  unfold position current peek
  cases hp : c.pending with
  | nil =>
    rw [hp] at hascends
    exact hascends
  | cons t ts =>
    rw [hp] at hascends
    exact hascends.1

/-- What is read is not empty. -/
theorem lt (hu : c.Upto 1 c') : c.position.offset < c'.lastEnd.offset := by
  obtain ⟨ts, hlength, hts⟩ := hu
  have hpassed := h.passed hts
  obtain ⟨t, ts, rfl⟩ := List.exists_cons_of_ne_nil (List.length_pos_iff.mp hlength)
  obtain ⟨-, ht, hrest⟩ := hpassed
  have hle := hrest.le
  have hposition : c.position = t.span.start := by
    rw [position, current, peek, hts.pending]
    rfl
  rw [hposition]
  omega

end Stands

end Cursor

/-- Between the cursors stand these spans, and what has them is known to be so. -/
structure Leading (c : Cursor) (parts : List Span) (q : Prop) (c' : Cursor) : Prop where
  upto : c.Upto 0 c'
  parts : Ascends c.lastEnd.offset parts c'.lastEnd.offset
  known : q

/-- The same where the tokens stand as they should. -/
def Leads (tokens : List Token) (c : Cursor) (parts : List Span) (q : Prop) (c' : Cursor) :
    Prop :=
  c.Stands tokens → Leading c parts q c'

namespace Leads

variable {ps qs : List Span} {q r : Prop}

/-- Whatever is consumed, it makes no tree. -/
theorem of_upto {n : Nat} (h : c.Upto n c') : Leads tokens c [] True c' :=
  fun hc => ⟨h.weaken (Nat.zero_le n), hc.le h, trivial⟩

theorem refl (c : Cursor) : Leads tokens c [] True c := of_upto (.refl c)

theorem next (c : Cursor) : Leads tokens c [] True c.next := of_upto (.next c)

theorem trans (h : Leads tokens c ps q c₁) (h' : Leads tokens c₁ qs r c') :
    Leads tokens c (ps ++ qs) (q ∧ r) c' := by
  intro hc
  obtain ⟨hupto, hps, hq⟩ := h hc
  obtain ⟨hupto', hqs, hr⟩ := h' (hc.upto hupto)
  exact ⟨hupto.trans hupto', hps.append hqs, hq, hr⟩

theorem known_mono (h : Leads tokens c ps q c') (hr : q → r) : Leads tokens c ps r c' := by
  intro hc
  obtain ⟨hupto, hps, hq⟩ := h hc
  exact ⟨hupto, hps, hr hq⟩

/-- Nothing that makes a tree stands in front. -/
theorem behind (h : Leads tokens c [] True c₁) (h' : Leads tokens c₁ qs r c') :
    Leads tokens c qs r c' := (h.trans h').known_mono And.right

/-- Nothing that makes a tree stands behind. -/
theorem before (h : Leads tokens c ps q c₁) (h' : Leads tokens c₁ [] True c') :
    Leads tokens c ps q c' := by
  have htrans := (h.trans h').known_mono And.left
  rwa [List.append_nil] at htrans

end Leads

end ScriptLang
