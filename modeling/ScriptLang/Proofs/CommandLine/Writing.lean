import ScriptLang.Proofs.CommandLine.Directory

/-!
# Where a file can be written

A file can be written at a path that ends in a name, where directories are or can be made on the
way to it. Writing puts the file at the place the path leads to, and nowhere else; where it
succeeds, all this was so.
-/

namespace ScriptLang.Disk

open ScriptLang.Path

/-- The places a path leads through, in front of its last component. -/
def ways (d : Disk) (path : List Char) : List Place :=
  (split path).dropLast.scanl follow (d.origin path)

theorem ways_eq (d : Disk) {path x : List Char} {cs : List (List Char)}
    (h : split path = cs ++ [x]) : d.ways path = cs.scanl follow (d.origin path) := by
  rw [ways, h, List.dropLast_concat]

/-- A name behind the directories is in the last of them. -/
theorem target_eq (d : Disk) {path x : List Char} {cs : List (List Char)}
    (h : split path = cs ++ [x]) (hnil : x ≠ []) (hpoint : x ≠ ['.'])
    (hdots : x ≠ ['.', '.']) : d.target path = cs.foldl follow (d.origin path) ++ [x] := by
  rw [target, h, List.foldl_append, List.foldl_cons, List.foldl_nil, follow,
    if_neg (by simp [hnil, hpoint]), if_neg hdots]

/-- A path that was written to ends in a name, behind directories that are there. -/
theorem exists_of_write {d written : Disk} {path : List Char} {bytes : ByteArray}
    (h : d.write path bytes = .ok written) : ∃ cs x, split path = cs ++ [x] ∧
      bytesIn path < 4096 ∧ (x ≠ [] ∧ x ≠ ['.'] ∧ x ≠ ['.', '.']) ∧
      (∀ c ∈ cs ++ [x], bytesIn c ≤ 255) ∧
      (∀ q ∈ cs.scanl follow (d.origin path), d.entry? q = some .directory) ∧
      d.entry? (cs.foldl follow (d.origin path) ++ [x]) ≠ some .directory := by
  simp only [write, bind, Except.bind] at h
  split at h
  · cases h
  next hpath =>
  split at h
  · cases h
  next place hwalk =>
  split at h
  · cases h
  next hdir =>
  split at h
  · cases h
  next hends =>
  split at h
  · cases h
  next hname =>
  split at h
  · cases h
  next hfree =>
  simp only [Bool.or_eq_true, decide_eq_true_eq, not_or] at hends
  obtain ⟨⟨hslash, hpoint⟩, hdots⟩ := hends
  rw [withoutSlashes_of_last hslash] at hwalk hpoint hdots hname hfree
  obtain ⟨cs, x, hsplit⟩ := exists_split path
  have hlast : (split path).getLastD [] = x := by simp [hsplit]
  rw [hlast] at hpoint hdots hname hfree
  rw [hsplit, List.dropLast_concat] at hwalk
  obtain ⟨hne, hshort⟩ := checkPath_eq_ok hpath
  obtain ⟨rfl, hdirs, hnames⟩ := walk_eq_ok hwalk hdir
  refine ⟨cs, x, hsplit, hshort, ⟨ne_nil_of_split hne hslash hsplit, hpoint, hdots⟩, ?_, hdirs,
    hfree⟩
  rw [List.forall_mem_append, List.forall_mem_singleton]
  exact ⟨hnames, checkName_eq_ok hname⟩

/-- A file can be written at a path: its last component can be the name of a file, no file is
in the way and no directory at the place itself, also none that the path leads through. -/
structure Writable (d : Disk) (path : List Char) : Prop where
  short : bytesIn path < 4096
  names : ∀ c ∈ split path, bytesIn c ≤ 255
  named : ∀ c ∈ (split path).getLast?, c ≠ [] ∧ c ≠ ['.'] ∧ c ≠ ['.', '.']
  start : d.entry? (d.origin path) = some .directory
  unfiled : ∀ q ∈ d.ways path, d.entry? q = none ∨ d.entry? q = some .directory
  free : d.entry? (d.target path) ≠ some .directory
  apart : d.target path ∉ d.ways path

namespace Writable

variable {d : Disk} {path : List Char}

/-- The last component names the target in its directory. -/
theorem exists_target (h : d.Writable path) : ∃ cs x, split path = cs ++ [x] ∧
    (x ≠ [] ∧ x ≠ ['.'] ∧ x ≠ ['.', '.']) ∧
    d.target path = cs.foldl follow (d.origin path) ++ [x] := by
  obtain ⟨cs, x, hsplit⟩ := exists_split path
  have hnamed := h.named x (by simp [hsplit])
  exact ⟨cs, x, hsplit, hnamed, d.target_eq hsplit hnamed.1 hnamed.2.1 hnamed.2.2⟩

theorem trimmed (h : d.Writable path) : path ≠ [] ∧ Path.trimmed path = path := by
  obtain ⟨cs, x, hsplit, ⟨hnil, hpoint, -⟩, -⟩ := h.exists_target
  exact trimmed_of_split hsplit hnil hpoint

/-- The parent of a path to write can be made. -/
theorem makes (h : d.Writable path) (htree : d.IsTree) : ∃ parent made,
    parent? path = some parent ∧ Made d made (d.ways path) ∧
      (parent = [] ∧ made = d ∨ parent ≠ [] ∧
        createDirectories (parent.length + 1) d parent = (.ok (), made)) := by
  obtain ⟨cs, x, parent, hsplit, hparent, hcases⟩ := exists_parent h.trimmed.1 h.trimmed.2
  have hways := d.ways_eq hsplit
  have hnames := h.names
  have hunfiled := h.unfiled
  rw [hsplit, List.forall_mem_append] at hnames
  rw [hways] at hunfiled ⊢
  rcases hcases with ⟨rfl, rfl⟩ | hof
  · exact ⟨[], d, hparent, .refl (by simpa using h.start), .inl ⟨rfl, rfl⟩⟩
  · obtain ⟨made, hrun, hmade, -⟩ := Passable.createDirectories (Nat.lt_succ_self _)
      (passable_parent hof h.short hnames.1 h.start hunfiled) htree
    rw [origin_parent hof] at hmade
    exact ⟨parent, made, hparent, hmade.congr fun q => (mem_scanl_parent hof _ q).symm,
      .inr ⟨hof.clean.ne_nil, hrun⟩⟩

/-- Behind the directories the file is written. -/
theorem writes (h : d.Writable path) {made : Disk} (hmade : Made d made (d.ways path))
    (bytes : ByteArray) : made.write path bytes = .ok (made.put (d.target path) (.file bytes)) := by
  obtain ⟨cs, x, hsplit, ⟨-, hpoint, hdots⟩, htarget⟩ := h.exists_target
  have hnames := h.names
  rw [hsplit, List.forall_mem_append, List.forall_mem_singleton] at hnames
  have hways := d.ways_eq hsplit
  have hdirs : ∀ q ∈ cs.scanl follow (d.origin path), made.entry? q = some .directory :=
    fun q hq => hmade.directory (hways ▸ hq)
  have hpath := checkPath_ok h.trimmed.1 h.short
  have hslash := getLast?_of_trimmed h.trimmed.2
  have hfree : made.entry? (d.target path) ≠ some .directory := by
    rw [hmade.entry, if_neg h.apart]
    exact h.free
  have hwalk : made.walk (made.origin path) cs = .ok (cs.foldl follow (d.origin path)) := by
    rw [hmade.origin, ← List.append_nil cs, walk_append hdirs hnames.1, List.append_nil]
    rfl
  have hlast : (cs ++ [x]).getLastD [] = x := by simp
  rw [write, hpath, withoutSlashes_of_last hslash, hsplit]
  simp only [bind, Except.bind, List.dropLast_concat, hlast, hwalk,
    checkDirectory_ok (hdirs _ (foldl_mem_scanl _ _)), checkName_ok hnames.2, ← htarget]
  exact if_neg (by simp [hslash, hpoint, hdots])

/-- What is on the disk then. -/
theorem entry?_written (h : d.Writable path) {made : Disk} (hmade : Made d made (d.ways path))
    (bytes : ByteArray) (q : Place) :
    Disk.entry? (made.put (d.target path) (.file bytes)) q =
      if q = d.target path then some (.file bytes)
      else if q ∈ d.ways path then some .directory else d.entry? q := by
  obtain ⟨cs, x, -, -, htarget⟩ := h.exists_target
  rw [entry?_put _ (by simp [htarget]), hmade.entry]

/-- **Only where a file can be written is one written**, with more directories. -/
theorem of_write {grown written : Disk} {bytes : ByteArray} (hgrown : Grown d grown)
    (hworking : d.entry? d.working = some .directory) (h : grown.write path bytes = .ok written) :
    d.Writable path := by
  obtain ⟨cs, x, hsplit, hshort, ⟨hnil, hpoint, hdots⟩, hnames, hdirs, hfree⟩ := exists_of_write h
  rw [hgrown.origin] at hdirs hfree
  have hways := d.ways_eq hsplit
  have htarget := d.target_eq hsplit hnil hpoint hdots
  -- What is a directory now was one, or is one of those that were added.
  have hold : ∀ q, grown.entry? q = some .directory →
      d.entry? q = none ∨ d.entry? q = some .directory := by
    intro q hq
    rcases hgrown.entry q with h | ⟨hnone, -⟩
    · exact .inr (h ▸ hq)
    · exact .inl hnone
  refine ⟨hshort, hsplit ▸ hnames, ?_, ?_, ?_, ?_, ?_⟩
  · simp [hsplit, hnil, hpoint, hdots]
  · rw [origin]
    split
    · rfl
    · exact hworking
  · rw [hways]
    exact fun q hq => hold q (hdirs q hq)
  · rw [htarget]
    intro hdir
    rcases hgrown.entry (cs.foldl follow (d.origin path) ++ [x]) with h | ⟨hnone, -⟩
    · exact hfree (h.trans hdir)
    · exact absurd (hnone.symm.trans hdir) (by simp)
  · rw [htarget, hways]
    exact fun hmem => hfree (hdirs _ hmem)

end Writable

end ScriptLang.Disk
