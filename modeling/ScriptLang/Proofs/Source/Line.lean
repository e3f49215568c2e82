import ScriptLang.Proofs.Source.Piece
import ScriptLang.Report

/-!
# The line a report shows

Every offset on a character boundary of a source has a line that holds it, the offset at
the end of the source included. The line is a piece of the source, the place is on a
character boundary of it, and a report of a fault there shows both.
-/

namespace ScriptLang

theorem byteLength_pos {cs : List Char} (h : cs ≠ []) : 0 < byteLength cs := by
  obtain ⟨c, cs, rfl⟩ := List.exists_cons_of_ne_nil h
  have hc := c.utf8Size_pos
  rw [byteLength_cons]
  omega

/-- Characters are as many as their bytes if each is a byte. -/
theorem byteLength_eq_length_iff {cs : List Char} :
    byteLength cs = cs.length ↔ ∀ c ∈ cs, c.utf8Size = 1 := by
  have hle : ∀ cs : List Char, cs.length ≤ byteLength cs := by
    intro cs
    induction cs with
    | nil => exact le_rfl
    | cons c cs ih =>
      have hc := c.utf8Size_pos
      rw [List.length_cons, byteLength_cons]
      omega
  induction cs with
  | nil => simp
  | cons c cs ih =>
    have hc := c.utf8Size_pos
    have hcs := hle cs
    simp only [List.forall_mem_cons, ← ih, byteLength_cons, List.length_cons]
    omega

/-- Of two cuts of a text, the one with fewer bytes in front is in front. -/
theorem exists_of_byteLength_le {as bs cs ds : List Char} (h : as ++ bs = cs ++ ds)
    (hle : byteLength as ≤ byteLength cs) : ∃ es, cs = as ++ es := by
  rcases List.append_eq_append_iff.mp h with ⟨es, rfl, -⟩ | ⟨es, rfl, -⟩
  · exact ⟨es, rfl⟩
  · rw [byteLength_append] at hle
    have hes : es = [] := by
      by_contra hne
      have hpos := byteLength_pos hne
      omega
    exact ⟨[], by simp [hes]⟩

namespace LineView

/-- The view shows the line of the source that holds the offset, and the place in it. The
source itself is empty if it has no line. -/
structure Shows (v : LineView) (source : List Char) (offset : Nat) : Prop where
  line : source = [] ∧ v = ⟨1, [], 0⟩ ∨ ∃ above below, pieces source = above ++ v.text :: below ∧
    v.number = above.length + 1 ∧ offset = byteLength above.flatten + v.column
  column : ∃ front behind, v.text = front ++ behind ∧ v.column = byteLength front

/-- Blanks and tabs are a byte each. -/
theorem byteLength_indentation (v : LineView) :
    byteLength v.indentation = v.indentation.length := by
  rw [byteLength_eq_length_iff]
  intro c hc
  have hc := List.mem_takeWhile_imp hc
  simp only [Bool.or_eq_true, decide_eq_true_eq] at hc
  rcases hc with rfl | rfl <;> rfl

/-- The byte at the width of the indentation starts a character, and what a report shows of the
line starts with it. -/
theorem exists_cut (v : LineView) : ∃ rest, v.text = v.indentation ++ rest ∧
    byteLength v.indentation = v.indentation.length ∧ v.shown = Text.trimEnd rest := by
  have hcut : v.text = v.indentation ++ v.text.drop v.indentation.length :=
    (List.prefix_iff_eq_append.mp (List.takeWhile_prefix _)).symm
  exact ⟨v.text.drop v.indentation.length, hcut, v.byteLength_indentation, rfl⟩

/-- A line that is found is among the pieces, behind the bytes of those above it. -/
theorem Locates.exists_split {v : LineView} {source : List Char} {offset : Nat}
    (h : v.Locates (pieces source) source offset) : source = [] ∧ v = ⟨1, [], 0⟩ ∨
      ∃ above below, pieces source = above ++ v.text :: below ∧ v.number = above.length + 1 ∧
        offset = byteLength above.flatten + v.column := by
  rcases h.line with hline | ⟨hsource, hnumber, htext⟩
  · obtain ⟨hlt, hget⟩ := List.getElem?_eq_some_iff.mp hline
    refine .inr ⟨(pieces source).take (v.number - 1), (pieces source).drop (v.number - 1 + 1),
      ?_, ?_, h.total.symm⟩
    · rw [← hget, ← List.drop_eq_getElem_cons hlt, List.take_append_drop]
    · have hcounted := h.counted
      rw [List.length_take_of_le hlt.le]
      omega
  · have hinside := h.inside
    obtain ⟨number, text, column⟩ := v
    dsimp only at hnumber htext hinside
    subst hnumber htext
    obtain rfl := Nat.le_zero.mp hinside
    exact .inl ⟨hsource, rfl⟩

end LineView

/-- Every boundary between characters of a source has a line to show. -/
theorem exists_lineAt {source before after : List Char} (h : source = before ++ after) :
    ∃ v, lineAt? source (byteLength before) = some v ∧ v.Shows source (byteLength before) := by
  have hsize : byteLength before ≤ byteLength source := by
    rw [h, byteLength_append]
    omega
  obtain ⟨v, hv, hlocates⟩ := exists_locates hsize
  refine ⟨v, hv, hlocates.exists_split, ?_⟩
  rcases hlocates.exists_split with ⟨-, rfl⟩ | ⟨above, below, hps, -, hoffset⟩
  · exact ⟨[], [], rfl, rfl⟩
  -- The line starts on a boundary and so does the offset, so the place in the line is one.
  · have hflat : above.flatten ++ (v.text ++ below.flatten) = before ++ after := by
      rw [← h, ← flatten_pieces source, hps]
      simp
    obtain ⟨front, rfl⟩ := exists_of_byteLength_le hflat (by omega)
    rw [byteLength_append] at hoffset
    rw [List.append_assoc, List.append_cancel_left_eq] at hflat
    have hinside := hlocates.inside
    obtain ⟨behind, hbehind⟩ := exists_of_byteLength_le hflat.symm (by omega)
    exact ⟨front, behind, hbehind, by omega⟩

/-- A report of a fault in a line ends in the picture of that line. -/
theorem Fault.exists_report {f : Fault} {source : String} {v : LineView}
    (h : lineAt? source.toList f.position.offset = some v) (file : String) :
    ∃ heading, f.report source file = heading ++ v.render := by
  unfold report
  dsimp only
  rw [h]
  exact ⟨_, rfl⟩

end ScriptLang
