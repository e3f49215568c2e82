import ScriptLang.Grammar.Source
import ScriptLang.Proofs.Source.Line

/-!
# Where the caret of a report stands

A report of a fault inside the text of a line shows that line, without its indentation and
the white space at its end. The caret stands as many columns behind the gutter as there are
bytes in front of the fault, and so below the fault if and only if these are a byte each.
-/

namespace ScriptLang

/-- Blanks and tabs. -/
def isIndent (c : Char) : Bool := c = ' ' || c = '\t'

/-- What a text has behind its last newline. -/
def lineFront (before : List Char) : List Char := before.rtakeWhile (· ≠ '\n')

/-- What a text has in front of its first newline. -/
def lineRest (after : List Char) : List Char := after.takeWhile (· ≠ '\n')

/-- The last two lines of a report: a line of a source behind its number, and a caret in a
column. -/
def Pictures (report : List Char) (number : Nat) (line : List Char) (column : Nat) : Prop :=
  ∃ above front, pieces report = above ++ [(toString number).toList ++ " | ".toList ++ line ++ ['\n'],
    front ++ ['^', '\n']] ∧ '^' ∉ front ∧ front.length = column

theorem newline_notMem_lineFront (before : List Char) : '\n' ∉ lineFront before := by
  intro h
  simpa using List.mem_rtakeWhile_imp h

theorem newline_notMem_lineRest (after : List Char) : '\n' ∉ lineRest after := by
  intro h
  simpa using List.mem_takeWhile_imp h

/-- What is above the line of a place are whole lines, one for each newline so far. -/
theorem exists_above (before : List Char) : ∃ above, before = above ++ lineFront before ∧
    (∀ c ∈ above.getLast?, c = '\n') ∧ above.count '\n' = before.count '\n' := by
  have hsplit : before = before.rdropWhile (· ≠ '\n') ++ lineFront before :=
    List.rdropWhile_append_rtakeWhile.symm
  refine ⟨before.rdropWhile (· ≠ '\n'), hsplit, ?_, ?_⟩
  · intro c hc
    obtain ⟨hne, rfl⟩ := List.mem_getLast?_eq_getLast hc
    simpa using List.rdropWhile_last_not _ _ hne
  · conv_rhs => rw [hsplit]
    rw [List.count_append, List.count_eq_zero_of_not_mem (newline_notMem_lineFront before),
      Nat.add_zero]

/-- Behind the rest of a line are its newline and the lines below, if anything is. -/
theorem exists_below (after : List Char) : ∃ newline below,
    after = lineRest after ++ newline ++ below ∧
      (newline = ['\n'] ∨ newline = [] ∧ below = []) := by
  have hsplit : after = lineRest after ++ after.dropWhile (· ≠ '\n') :=
    List.takeWhile_append_dropWhile.symm
  cases hbelow : after.dropWhile (· ≠ '\n') with
  | nil =>
    rw [hbelow] at hsplit
    exact ⟨[], [], by rwa [List.append_nil], .inr ⟨rfl, rfl⟩⟩
  | cons c below =>
    have hc : c = '\n' := by
      have h := List.head?_dropWhile_not (· ≠ '\n') after
      rw [hbelow] at h
      simpa using h
    refine ⟨['\n'], below, ?_, .inl rfl⟩
    rwa [hbelow, hc, ← List.singleton_append, ← List.append_assoc] at hsplit

theorem exists_pieces_eq_cons {line newline below : List Char} (h : '\n' ∉ line) (hne : line ≠ [])
    (hnewline : newline = ['\n'] ∨ newline = [] ∧ below = []) :
    ∃ ps, pieces (line ++ newline ++ below) = (line ++ newline) :: ps := by
  rcases hnewline with rfl | ⟨rfl, rfl⟩
  · exact ⟨pieces below, by rw [List.append_assoc, List.singleton_append, pieces_line h]⟩
  · exact ⟨[], by rw [List.append_nil, List.append_nil, pieces_single h hne]⟩

/-- The line of a place that some text of its line follows. -/
theorem lineAt_split (before : List Char) {after : List Char} (h : lineRest after ≠ []) :
    ∃ newline, (newline = ['\n'] ∨ newline = []) ∧
      lineAt? (before ++ after) (byteLength before) = some ⟨before.count '\n' + 1,
        lineFront before ++ lineRest after ++ newline, byteLength (lineFront before)⟩ := by
  obtain ⟨above, hbefore, hwhole, hcount⟩ := exists_above before
  obtain ⟨newline, below, hafter, hnewline⟩ := exists_below after
  obtain ⟨hlength, happend⟩ := pieces_whole hwhole
  have hline : '\n' ∉ lineFront before ++ lineRest after := fun hmem =>
    (List.mem_append.mp hmem).elim (newline_notMem_lineFront before)
      (newline_notMem_lineRest after)
  obtain ⟨ps, hps⟩ := exists_pieces_eq_cons hline (by simp [h]) hnewline
  -- The place is in the piece behind those of the lines above, and not at its end.
  have hpieces : pieces (before ++ after) =
      pieces above ++ (lineFront before ++ lineRest after ++ newline) :: ps := by
    conv_lhs => rw [hbefore, hafter]
    simpa [happend] using hps
  have hplace : byteLength before =
      byteLength (pieces above).flatten + byteLength (lineFront before) := by
    rw [flatten_pieces, ← byteLength_append, ← hbefore]
  have hrest : 0 < byteLength (lineRest after) := byteLength_pos h
  have hsize : byteLength (lineRest after) ≤ byteLength after := by
    conv_rhs => rw [hafter]
    simp only [byteLength_append]
    omega
  refine ⟨newline, hnewline.imp_right And.left, ?_⟩
  unfold lineAt?
  dsimp only
  rw [byteLength_append, if_neg (by omega), if_neg (by omega), hpieces, hplace, lineAmong_append,
    lineAmong, if_pos (by simp only [byteLength_append]; omega), hlength, hcount, Nat.add_comm 1]

theorem byteLength_takeWhile_isIndent (cs : List Char) :
    byteLength (cs.takeWhile isIndent) = (cs.takeWhile isIndent).length :=
  LineView.byteLength_indentation ⟨0, cs, 0⟩

namespace LineView

theorem indentation_eq (v : LineView) : v.indentation = v.text.takeWhile isIndent := rfl

theorem shown_eq (v : LineView) :
    v.shown = (v.text.dropWhile isIndent).rdropWhile Text.isBlank := by
  have hcut : v.text.drop v.indentation.length = v.text.dropWhile isIndent := by
    have h := List.takeWhile_append_dropWhile (p := isIndent) (l := v.text)
    conv_lhs => rw [← h]
    exact List.drop_left
  rw [shown, hcut]
  rfl

/-- What is shown of a line has no newline, which was at its end. -/
theorem newline_notMem_shown {v : LineView} {source : List Char} {offset : Nat}
    (h : v.Shows source offset) : '\n' ∉ v.shown := by
  have htext : '\n' ∉ v.text.dropLast := by
    rcases h.line with ⟨-, rfl⟩ | ⟨above, below, hpieces, -⟩
    · simp
    · have hmem : v.text ∈ pieces source := by simp [hpieces]
      exact newline_notMem_dropLast hmem
  obtain ⟨rest, hrest, -, hshown⟩ := v.exists_cut
  obtain ⟨white, hwhite⟩ : v.shown <+: rest := hshown ▸ List.rdropWhile_prefix Text.isBlank rest
  rcases List.eq_nil_or_concat' v.shown with hnil | ⟨front, c, hc⟩
  · simp [hnil]
  have hblank : ¬ Text.isBlank c := by
    have hlast := List.rdropWhile_last_not Text.isBlank rest
    change ∀ h, ¬ Text.isBlank ((Text.trimEnd rest).getLast h) at hlast
    simpa [← hshown, hc] using hlast
  have hinner : '\n' ∉ front := by
    rw [hrest, ← hwhite, hc, List.append_assoc, ← List.append_assoc,
      List.dropLast_append_of_ne_nil (by simp)] at htext
    simp_all
  rw [hc, List.mem_append, List.mem_singleton]
  rintro (hmem | rfl)
  · exact hinner hmem
  · exact hblank rfl

end LineView

theorem newline_notMem_toString (n : Nat) : '\n' ∉ (toString n).toList := by
  intro h
  rw [Nat.toString_eq_repr, Nat.toList_repr] at h
  have hdigit : Char.isDigit '\n' := Nat.isDigit_of_mem_toDigits (by decide) (by decide) h
  exact absurd hdigit (by decide)

theorem toList_gutterBar (width : Nat) :
    (gutterBar width).toList = List.replicate (width + 1) ' ' ++ ['|'] := by
  simp [gutterBar]

/-- The lines of a picture. -/
theorem toList_render (v : LineView) : v.render.toList =
    (gutterBar (toString v.number).length).toList ++ '\n' ::
      ((toString v.number).toList ++ " | ".toList ++ v.shown ++ '\n' ::
        ((gutterBar (toString v.number).length).toList ++ ' ' ::
          List.replicate v.caretColumn '-' ++ ['^'] ++ '\n' :: [])) := by
  simp [LineView.render, toString]

/-- A report pictures the line of its fault. -/
theorem Fault.pictures_report {f : Fault} {source : String} {v : LineView}
    (h : lineAt? source.toList f.position.offset = some v) (hshown : '\n' ∉ v.shown)
    (file : String) : Pictures (f.report source file).toList v.number v.shown
      ((toString v.number).length + 3 + v.caretColumn) := by
  have hheading : ∃ heading,
      (f.report source file).toList = heading ++ ['\n'] ++ v.render.toList := by
    unfold report
    dsimp only
    rw [h]
    exact ⟨_, by rw [String.toList_append, String.toList_append]; rfl⟩
  obtain ⟨heading, hreport⟩ := hheading
  have hbar : '\n' ∉ (gutterBar (toString v.number).length).toList := by
    simp [toList_gutterBar]
  have hline : '\n' ∉ (toString v.number).toList ++ " | ".toList ++ v.shown := by
    have hnumber := newline_notMem_toString v.number
    simp_all
  have hcaret : '\n' ∉ (gutterBar (toString v.number).length).toList ++ ' ' ::
      List.replicate v.caretColumn '-' ++ ['^'] := by
    simp [toList_gutterBar]
  refine ⟨pieces (heading ++ ['\n']) ++ [(gutterBar (toString v.number).length).toList ++ ['\n']],
    (gutterBar (toString v.number).length).toList ++ ' ' :: List.replicate v.caretColumn '-',
    ?_, ?_, ?_⟩
  · rw [hreport, (pieces_whole (by simp)).2, toList_render, pieces_line hbar, pieces_line hline,
      pieces_line hcaret]
    simp [pieces]
  · simp [toList_gutterBar]
  · simp [toList_gutterBar]
    omega

/-- The caret of a report has one column. -/
theorem Pictures.column_unique {report line line' : List Char} {number number' column column' : Nat}
    (h : Pictures report number line column) (h' : Pictures report number' line' column') :
    column = column' := by
  obtain ⟨above, front, hpieces, -, rfl⟩ := h
  obtain ⟨above', front', hpieces', -, rfl⟩ := h'
  have hlast := congrArg List.getLast? (hpieces.symm.trans hpieces')
  simp at hlast
  rw [hlast]

/-- Indentation ends in front of a place, or with the character at it. -/
theorem indent_append {front rest : List Char}
    (h : ∃ c ∈ front ++ rest.take 1, isIndent c = false) :
    (front ++ rest).takeWhile isIndent = front.takeWhile isIndent ∧
      (front ++ rest).dropWhile isIndent = front.dropWhile isIndent ++ rest := by
  induction front with
  | nil =>
    obtain ⟨c, hc, hindent⟩ := h
    cases rest with
    | nil => cases hc
    | cons d ds =>
      obtain rfl : c = d := by simpa using hc
      simp [hindent]
  | cons d front ih =>
    by_cases hd : isIndent d = true
    · have hfront : ∃ c ∈ front ++ rest.take 1, isIndent c = false := by
        obtain ⟨c, hc, hindent⟩ := h
        rcases List.mem_cons.mp hc with rfl | hc
        · exact absurd hd (by simp [hindent])
        · exact ⟨c, hc, hindent⟩
      obtain ⟨htake, hdrop⟩ := ih hfront
      simp [hd, htake, hdrop]
    · simp [hd]

/-- White space at the end of a text goes up to the last character that is none. -/
theorem rdropWhile_isBlank_append (front : List Char) {rest : List Char}
    (h : ∃ c ∈ rest, Text.isBlank c = false) :
    (front ++ rest).rdropWhile Text.isBlank = front ++ rest.rdropWhile Text.isBlank ∧
      rest.take 1 <+: rest.rdropWhile Text.isBlank := by
  have hne : rest.rdropWhile Text.isBlank ≠ [] := by
    obtain ⟨c, hc, hblank⟩ := h
    rw [Ne, List.rdropWhile_eq_nil_iff, not_forall]
    exact ⟨c, by simp [hc, hblank]⟩
  constructor
  · have hrev : ((rest.reverse.dropWhile Text.isBlank).isEmpty) = false := by
      simpa [List.rdropWhile] using hne
    simp [List.rdropWhile, List.dropWhile_append, hrev]
  · obtain ⟨c, cs, hcs⟩ := List.exists_cons_of_ne_nil hne
    obtain ⟨tail, htail⟩ := rest.rdropWhile_prefix Text.isBlank
    rw [hcs] at htail ⊢
    rw [← htail]
    simp

/-- What a report shows of a line with a place in its text. -/
theorem LineView.picture_of_place {front rest newline : List Char} (number : Nat)
    (hindent : ∃ c ∈ front ++ rest.take 1, isIndent c = false)
    (htrail : ∃ c ∈ rest, Text.isBlank c = false) (hnewline : newline = ['\n'] ∨ newline = []) :
    let v : LineView := ⟨number, front ++ rest ++ newline, byteLength front⟩
    v.shown = front.dropWhile isIndent ++ rest.rdropWhile Text.isBlank ∧
      v.caretColumn = byteLength (front.dropWhile isIndent) := by
  intro v
  have hindent' : ∃ c ∈ front ++ (rest ++ newline).take 1, isIndent c = false := by
    obtain ⟨c, hc, -⟩ := htrail
    cases rest with
    | nil => cases hc
    | cons d ds => simpa using hindent
  have htrail' : ∃ c ∈ rest ++ newline, Text.isBlank c = false := by
    obtain ⟨c, hc, hblank⟩ := htrail
    exact ⟨c, List.mem_append_left _ hc, hblank⟩
  have htext : v.text = front ++ (rest ++ newline) := List.append_assoc ..
  obtain ⟨htake, hdrop⟩ := indent_append hindent'
  constructor
  · have hend : (rest ++ newline).rdropWhile Text.isBlank = rest.rdropWhile Text.isBlank := by
      rcases hnewline with rfl | rfl
      · exact List.rdropWhile_concat_pos _ _ _ rfl
      · rw [List.append_nil]
    rw [shown_eq, htext, hdrop, (rdropWhile_isBlank_append _ htrail').1, hend]
  · have hbytes := congrArg byteLength
      (List.takeWhile_append_dropWhile (p := isIndent) (l := front))
    rw [byteLength_append, byteLength_takeWhile_isIndent] at hbytes
    rw [caretColumn, indentation_eq, htext, htake]
    change byteLength front - _ = _
    omega

/-- **The caret of a report stands below the fault exactly if every character in front of the
fault on its line is a single byte.** The line is the one the fault is in, without its
indentation and the white space at its end. -/
theorem Fault.report_points {f : Fault} {source : String} {before after : List Char}
    (hsource : source.toList = before ++ after) (hoffset : f.position.offset = byteLength before)
    (hindent : ∃ c ∈ lineFront before ++ after.take 1, isIndent c = false)
    (htrail : ∃ c ∈ lineRest after, Text.isBlank c = false) (file : String) :
    let line := ((lineFront before ++ lineRest after).dropWhile isIndent).rdropWhile Text.isBlank
    let front := (lineFront before).dropWhile isIndent
    let number := before.count '\n' + 1
    let gutter := (toString number).length + 3
    front ++ after.take 1 <+: line ∧
    Pictures (f.report source file).toList number line (gutter + byteLength front) ∧
    (Pictures (f.report source file).toList number line (gutter + front.length) ↔
      ∀ c ∈ lineFront before, c.utf8Size = 1) := by
  intro line front number gutter
  have hne : lineRest after ≠ [] := by
    obtain ⟨c, hc, -⟩ := htrail
    exact List.ne_nil_of_mem hc
  have hhead : (lineRest after).take 1 = after.take 1 := by
    cases after with
    | nil => rfl
    | cons c cs =>
      by_cases hc : c = '\n'
      · exact absurd (by simp [lineRest, hc]) hne
      · simp [lineRest, hc]
  rw [← hhead] at hindent ⊢
  obtain ⟨newline, hnewline, hview⟩ := lineAt_split before hne
  rw [← hsource, ← hoffset] at hview
  obtain ⟨hshown, hcolumn⟩ := LineView.picture_of_place number hindent htrail hnewline
  obtain ⟨htrimmed, hkept⟩ := rdropWhile_isBlank_append front htrail
  have hline : line = front ++ (lineRest after).rdropWhile Text.isBlank := by
    rw [← htrimmed, ← (indent_append hindent).2]
  have hclean : '\n' ∉ line := by
    intro hmem
    have hmem := (List.dropWhile_suffix _).subset ((List.rdropWhile_prefix _ _).subset hmem)
    exact (List.mem_append.mp hmem).elim (newline_notMem_lineFront before)
      (newline_notMem_lineRest after)
  have hpicture : Pictures (f.report source file).toList number line
      (gutter + byteLength front) := by
    have h := pictures_report hview (by rwa [hshown, ← hline]) file
    rwa [hshown, ← hline, hcolumn] at h
  refine ⟨hline ▸ (List.prefix_append_right_inj _).mpr hkept, hpicture, ?_⟩
  -- Indentation has a byte for each character, so only what is shown in front decides.
  have hcut := List.takeWhile_append_dropWhile (p := isIndent) (l := lineFront before)
  have hbytes := congrArg byteLength hcut
  have hlength := congrArg List.length hcut
  rw [byteLength_append, byteLength_takeWhile_isIndent] at hbytes
  rw [List.length_append] at hlength
  change _ + byteLength front = _ at hbytes
  change _ + front.length = _ at hlength
  rw [← byteLength_eq_length_iff]
  constructor
  · intro h
    have hcolumns := hpicture.column_unique h
    omega
  · intro h
    rwa [show front.length = byteLength front by omega]

/-- The text in front of the variable has a character of two bytes. -/
theorem Fault.report_points_undeclared :
    let f : Fault := ⟨.variableNotDeclared "x", ⟨32, "main.kt"⟩⟩
    let report := (f.report "fun main() \x7b\n    println(\"é\" + x)\n\x7d" "main.kt").toList
    let line := "println(\"é\" + x)".toList
    Pictures report 2 line 19 ∧ ¬ Pictures report 2 line 18 := by
  intro f report line
  have hsource : "fun main() \x7b\n    println(\"é\" + x)\n\x7d".toList =
      "fun main() \x7b\n    println(\"é\" + ".toList ++ "x)\n\x7d".toList := by decide +kernel
  obtain ⟨-, hpicture, hiff⟩ := report_points (f := f) hsource (by decide +kernel)
    ⟨'x', by decide +kernel, by decide⟩ ⟨'x', by decide +kernel, by decide⟩ "main.kt"
  have hline : ((lineFront "fun main() \x7b\n    println(\"é\" + ".toList ++
      lineRest "x)\n\x7d".toList).dropWhile isIndent).rdropWhile Text.isBlank = line := by
    decide +kernel
  have hfront : (lineFront "fun main() \x7b\n    println(\"é\" + ".toList).dropWhile isIndent =
      "println(\"é\" + ".toList := by decide +kernel
  rw [hline, hfront] at hpicture hiff
  exact ⟨hpicture, fun h => absurd (hiff.mp h 'é' (by decide +kernel)) (by decide)⟩

/-- The parser refuses the brace, which is the character in column 18 of the line shown; the
caret stands in column 19. -/
theorem Fault.report_misses :
    let source := "var a = \"é\" * \x7d"
    let f : Fault := ⟨.unexpectedToken "\x7d", ⟨15, "main.kt"⟩⟩
    let report := (f.report source "main.kt").toList
    Program.ofSource source "main.kt" = .error (.fault f) ∧
    Pictures report 1 source.toList 19 ∧ ¬ Pictures report 1 source.toList 18 ∧
    ("1 | " ++ source).toList[18]? = some '\x7d' := by
  intro source f report
  have hpicture : Pictures report 1 source.toList 19 :=
    ⟨["Error: UnexpectedToken (Unexpected token: `\x7d`)\n".toList, "-> main.kt\n".toList,
      "  |\n".toList], "  | ---------------".toList, by decide +kernel, by decide +kernel,
      by decide +kernel⟩
  have hrefused : ((Program.ofSource source "main.kt").map fun _ => ()) = .error (.fault f) := by
    decide +kernel
  refine ⟨?_, hpicture, fun h => ?_, by decide +kernel⟩
  · cases hparsed : Program.ofSource source "main.kt" with
    | error halt =>
      rw [hparsed] at hrefused
      cases hrefused
      rfl
    | ok p =>
      rw [hparsed] at hrefused
      cases hrefused
  · exact absurd (hpicture.column_unique h) (by decide)

end ScriptLang
