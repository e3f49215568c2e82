import Mathlib.Data.List.DropRight
import ScriptLang.Source.Line

/-!
# Lines and offsets

The pieces of a source are its lines. Every offset up to the end of the source, on a
character boundary or not, has one of them, counted from one: what is above that line and
the place in it make up the offset.
-/

namespace ScriptLang

/-- The lines of a text make it up. Each but the last ends in the one newline it has; the
last is there for some text, and has no newline in front of its end. -/
structure LinesOf (ls : List (List Char)) (text : List Char) : Prop where
  joined : ls.flatten = text
  ended : ∀ l ∈ ls.dropLast, ∃ body, '\n' ∉ body ∧ l = body ++ ['\n']
  last : ∀ l ∈ ls.getLast?, l ≠ [] ∧ '\n' ∉ l.dropLast

/-- A text is empty, or has no newline, or starts with a line. -/
@[elab_as_elim]
theorem lines_induction {motive : List Char → Prop} (empty : motive [])
    (single : ∀ cs, '\n' ∉ cs → cs ≠ [] → motive cs)
    (line : ∀ body rest, '\n' ∉ body → motive rest → motive (body ++ '\n' :: rest))
    (text : List Char) : motive text := by
  by_cases hnl : '\n' ∈ text
  · obtain ⟨body, rest, rfl, hbody⟩ := List.eq_append_cons_of_mem hnl
    exact line body rest hbody (lines_induction empty single line rest)
  · by_cases hne : text = []
    · exact hne ▸ empty
    · exact single text hnl hne
termination_by text.length
decreasing_by simp [*]; omega

/-- A line in front of the others is a piece. -/
theorem pieces_line {body : List Char} (h : '\n' ∉ body) (rest : List Char) :
    pieces (body ++ '\n' :: rest) = (body ++ ['\n']) :: pieces rest := by
  induction body with
  | nil => rfl
  | cons c body ih =>
    rw [List.mem_cons, not_or] at h
    rw [List.cons_append, pieces, if_neg (Ne.symm h.1), ih h.2]
    rfl

/-- A text without a newline is a piece, if it is there at all. -/
theorem pieces_single {cs : List Char} (h : '\n' ∉ cs) (hne : cs ≠ []) : pieces cs = [cs] := by
  induction cs with
  | nil => exact absurd rfl hne
  | cons c cs ih =>
    rw [List.mem_cons, not_or] at h
    rw [pieces, if_neg (Ne.symm h.1)]
    cases cs with
    | nil => rfl
    | cons d ds => rw [ih h.2 (List.cons_ne_nil d ds)]

theorem linesOf_pieces (text : List Char) : LinesOf (pieces text) text := by
  refine ⟨flatten_pieces text, ?_, ?_⟩
  · induction text using lines_induction with
    | empty => simp [pieces]
    | single cs hnl hne => simp [pieces_single hnl hne]
    | line body rest hbody ih =>
      rw [pieces_line hbody]
      intro l hl
      cases hrest : pieces rest with
      | nil => simp [hrest] at hl
      | cons p ps =>
        rw [hrest, List.dropLast_cons_cons, List.mem_cons] at hl
        rcases hl with rfl | hl
        · exact ⟨body, hbody, rfl⟩
        · exact ih l (hrest ▸ hl)
  · induction text using lines_induction with
    | empty => simp [pieces]
    | single cs hnl hne =>
      simp only [pieces_single hnl hne, List.getLast?_singleton, Option.mem_def, Option.some.injEq]
      rintro _ rfl
      exact ⟨hne, fun h => hnl ((List.dropLast_sublist cs).mem h)⟩
    | line body rest hbody ih =>
      rw [pieces_line hbody]
      intro l hl
      cases hrest : pieces rest with
      | nil =>
        rw [hrest, List.getLast?_singleton, Option.mem_some_iff] at hl
        subst hl
        simpa using hbody
      | cons p ps =>
        rw [hrest, List.getLast?_cons_cons] at hl
        exact ih l (hrest ▸ hl)

/-- A newline is at the end of its piece. -/
theorem newline_notMem_dropLast {text l : List Char} (h : l ∈ pieces text) :
    '\n' ∉ l.dropLast := by
  have hlines := linesOf_pieces text
  have hne := List.ne_nil_of_mem h
  rw [← List.dropLast_append_getLast hne, List.mem_append, List.mem_singleton] at h
  rcases h with h | rfl
  · obtain ⟨body, hbody, rfl⟩ := hlines.ended l h
    rwa [List.dropLast_concat]
  · exact (hlines.last _ (List.getLast?_eq_some_getLast hne)).2

/-- A text of whole lines has one for each newline, and the text behind it starts with a
line of its own. -/
theorem pieces_whole {above : List Char} (h : ∀ c ∈ above.getLast?, c = '\n') :
    (pieces above).length = above.count '\n' ∧
      ∀ below, pieces (above ++ below) = pieces above ++ pieces below := by
  induction above using lines_induction with
  | empty => exact ⟨rfl, fun _ => rfl⟩
  | single cs hnl hne =>
    have hlast := h _ (List.getLast?_eq_some_getLast hne)
    exact absurd (hlast ▸ List.getLast_mem hne) hnl
  | line body rest hbody ih =>
    have hrest : ∀ c ∈ rest.getLast?, c = '\n' := by
      intro c hc
      apply h
      cases rest with
      | nil => cases hc
      | cons d ds => simpa using hc
    obtain ⟨hlength, happend⟩ := ih hrest
    rw [pieces_line hbody]
    constructor
    · rw [List.length_cons, hlength, List.count_append, List.count_eq_zero_of_not_mem hbody,
        List.count_cons_self, Nat.zero_add]
    · intro below
      rw [List.append_assoc, List.cons_append, pieces_line hbody, happend, List.cons_append]

/-- Pieces that end in front of the offset are passed over. -/
theorem lineAmong_append (offset number : Nat) (ps qs : List (List Char)) :
    lineAmong (byteLength ps.flatten + offset) number (ps ++ qs) =
      lineAmong offset (number + ps.length) qs := by
  induction ps generalizing number with
  | nil => simp
  | cons p ps ih =>
    rw [List.flatten_cons, byteLength_append, Nat.add_assoc, List.cons_append, lineAmong,
      if_neg (by omega), Nat.add_sub_cancel_left, ih, List.length_cons, Nat.add_assoc,
      Nat.add_comm 1]

/-- An offset in front of the end of pieces lies in one of them. -/
theorem exists_piece_of_lt {ps : List (List Char)} {offset : Nat}
    (h : offset < byteLength ps.flatten) : ∃ above p below place, ps = above ++ p :: below ∧
      offset = byteLength above.flatten + place ∧ place < byteLength p := by
  induction ps generalizing offset with
  | nil => simp at h
  | cons p ps ih =>
    by_cases hp : offset < byteLength p
    · exact ⟨[], p, ps, offset, rfl, (Nat.zero_add offset).symm, hp⟩
    · rw [List.flatten_cons, byteLength_append] at h
      have hrest : offset - byteLength p < byteLength ps.flatten := by omega
      obtain ⟨above, q, below, place, rfl, hoffset, hplace⟩ := ih hrest
      refine ⟨p :: above, q, below, place, rfl, ?_, hplace⟩
      rw [List.flatten_cons, byteLength_append]
      omega

/-- The view is that of the line with the offset, among the lines of a source: the lines
above it and the place in it make up the offset. The place is behind the whole line at the
end of the source only. A source without lines has the empty line 1. -/
structure LineView.Locates (v : LineView) (ls : List (List Char)) (source : List Char)
    (offset : Nat) : Prop where
  counted : 1 ≤ v.number
  line : ls[v.number - 1]? = some v.text ∨ source = [] ∧ v.number = 1 ∧ v.text = []
  total : byteLength (ls.take (v.number - 1)).flatten + v.column = offset
  inside : v.column ≤ byteLength v.text
  atEnd : v.column = byteLength v.text ↔ offset = byteLength source

/-- The end of a source has its last line. -/
theorem locates_end (source : List Char) :
    LineView.Locates ⟨max (pieces source).length 1, (pieces source).getLastD [],
      byteLength ((pieces source).getLastD [])⟩ (pieces source) source (byteLength source) := by
  have hjoined := flatten_pieces source
  rcases List.eq_nil_or_concat (pieces source) with hnil | ⟨above, last, hlast⟩
  · rw [hnil] at hjoined ⊢
    subst hjoined
    exact ⟨le_rfl, .inr ⟨rfl, rfl, rfl⟩, rfl, le_rfl, by simp⟩
  · have hnumber : max (pieces source).length 1 = above.length + 1 := by simp [hlast]
    have htext : (pieces source).getLastD [] = last := by simp [hlast]
    rw [hnumber, htext, hlast]
    refine ⟨Nat.le_add_left _ _, .inl (by simp), ?_, le_rfl, by simp⟩
    have htotal := congrArg byteLength hjoined
    rw [hlast, List.concat_eq_append, List.flatten_append, byteLength_append,
      List.flatten_singleton] at htotal
    simpa using htotal

/-- An offset in front of the end of a source has the line with the byte there. -/
theorem exists_locates_of_lt {source : List Char} {offset : Nat} (h : offset < byteLength source) :
    ∃ v, lineAmong offset 1 (pieces source) = some v ∧
      v.Locates (pieces source) source offset := by
  have hjoined := flatten_pieces source
  rw [← hjoined] at h
  obtain ⟨above, p, below, place, hps, hoffset, hplace⟩ := exists_piece_of_lt h
  rw [hjoined] at h
  refine ⟨⟨1 + above.length, p, place⟩, ?_, ?_⟩
  · rw [hps, hoffset, lineAmong_append, lineAmong, if_pos hplace]
  · have hnumber : 1 + above.length - 1 = above.length := Nat.add_sub_cancel_left 1 _
    refine ⟨Nat.le_add_right _ _, .inl ?_, ?_, hplace.le, ?_⟩
    · simp only [hnumber, hps]
      simp
    · simp only [hnumber, hps, List.take_left, hoffset]
    · dsimp only
      omega

/-- An offset up to the end of a source has a line. -/
theorem exists_locates {source : List Char} {offset : Nat} (h : offset ≤ byteLength source) :
    ∃ v, lineAt? source offset = some v ∧ v.Locates (pieces source) source offset := by
  unfold lineAt?
  dsimp only
  rw [if_neg (Nat.not_lt.mpr h)]
  by_cases hend : offset = byteLength source
  · rw [if_pos hend, hend]
    exact ⟨_, rfl, locates_end source⟩
  · rw [if_neg hend]
    exact exists_locates_of_lt (Nat.lt_of_le_of_ne h hend)

/-- **An offset has a line exactly up to the end of the source, and the line is one of the
source's lines.** -/
theorem lineAt_locates (source : List Char) (offset : Nat) :
    LinesOf (pieces source) source ∧
    (lineAt? source offset = none ↔ byteLength source < offset) ∧
    ∀ v, lineAt? source offset = some v → v.Locates (pieces source) source offset := by
  refine ⟨linesOf_pieces source, ?_⟩
  by_cases hpast : byteLength source < offset
  · simp [lineAt?, hpast]
  · obtain ⟨w, hline, hw⟩ := exists_locates (Nat.not_lt.mp hpast)
    rw [hline]
    refine ⟨by simp [hpast], ?_⟩
    rintro _ ⟨rfl⟩
    exact hw

end ScriptLang
