import ScriptLang.CommandLine.Disk
import ScriptLang.Proofs.CommandLine.Path

/-!
# Directories on the way to a file

A path leads through places to the place of its last component. Where none of them is a file,
the directories that are missing can be made, and nothing else changes by that.
-/

namespace ScriptLang.Disk

open ScriptLang.Path

/-- The place a path leads to. -/
def target (d : Disk) (path : List Char) : Place := (split path).foldl follow (d.origin path)

/-- What there is on a disk is in a directory. -/
def IsTree (d : Disk) : Prop :=
  ∀ place, d.entry? place ≠ none → d.entry? place.dropLast = some .directory

@[simp] theorem entry?_top (d : Disk) : d.entry? [] = some .directory := rfl

theorem entry?_below (d : Disk) {place : Place} (h : place ≠ []) :
    d.entry? place = d.entries.lookup place := if_neg h

theorem lookup_filter_ne {place q : Place} (h : q ≠ place) (entries : List (Place × Entry)) :
    (entries.filter fun p => p.1 ≠ place).lookup q = entries.lookup q := by
  induction entries with
  | nil => rfl
  | cons p entries ih =>
    obtain ⟨r, e⟩ := p
    by_cases hr : r = place
    · rw [List.filter_cons_of_neg (by simp [hr]), ih, List.lookup_cons, hr, beq_false_of_ne h]
    · rw [List.filter_cons_of_pos (by simp [hr]), List.lookup_cons, List.lookup_cons, ih]

/-- What is put at a place below the top is there, and all else stays. -/
theorem entry?_put (d : Disk) {place : Place} (hplace : place ≠ []) (e : Entry) (q : Place) :
    Disk.entry? (d.put place e) q = if q = place then some e else d.entry? q := by
  have hgone : (d.entries.filter fun p => p.1 ≠ place).lookup place = none := by
    rw [List.lookup_eq_none_iff]
    intro p hp
    have hne : p.1 ≠ place := by simpa using (List.mem_filter.mp hp).2
    simpa using Ne.symm hne
  by_cases htop : q = []
  · rw [htop, if_neg (Ne.symm hplace)]
    rfl
  · rw [entry?_below _ htop, entry?_below _ htop, put, List.lookup_append]
    by_cases hq : q = place
    · rw [if_pos hq, hq, hgone]
      simp
    · rw [if_neg hq, lookup_filter_ne hq, List.lookup_cons, beq_false_of_ne hq]
      simp

theorem checkDirectory_ok {d : Disk} {place : Place} (h : d.entry? place = some .directory) :
    d.checkDirectory place = .ok () := by
  rw [checkDirectory, h]

theorem checkDirectory_missing {d : Disk} {place : Place} (h : d.entry? place = none) :
    d.checkDirectory place = .error .notFound := by
  rw [checkDirectory, h]

theorem checkName_ok {name : List Char} (h : bytesIn name ≤ 255) : checkName name = .ok () :=
  if_pos h

theorem checkPath_ok {path : List Char} (hne : path ≠ []) (h : bytesIn path < 4096) :
    checkPath path = .ok () := by
  rw [checkPath, if_neg hne, if_pos h]

/-- Components are followed through directories. -/
theorem walk_append {d : Disk} {cs : List (List Char)} {place : Place}
    (hdirs : ∀ q ∈ cs.scanl follow place, d.entry? q = some .directory)
    (hnames : ∀ c ∈ cs, bytesIn c ≤ 255) (ds : List (List Char)) :
    d.walk place (cs ++ ds) = d.walk (cs.foldl follow place) ds := by
  induction cs generalizing place with
  | nil => rfl
  | cons c cs ih =>
    rw [List.scanl_cons, List.forall_mem_cons] at hdirs
    rw [List.forall_mem_cons] at hnames
    rw [List.cons_append, walk, checkDirectory_ok hdirs.1, checkName_ok hnames.1]
    exact ih hdirs.2 hnames.2

/-- Nothing is followed past a place where nothing is. -/
theorem walk_missing {d : Disk} {cs : List (List Char)} {place : Place} {x : List Char}
    (hnone : ∀ q ∈ cs.scanl follow place, d.entry? q = none ∨ d.entry? q = some .directory)
    (hmissing : ∃ q ∈ cs.scanl follow place, d.entry? q = none)
    (hnames : ∀ c ∈ cs, bytesIn c ≤ 255) :
    d.walk place (cs ++ [x]) = .error .notFound := by
  induction cs generalizing place with
  | nil =>
    obtain ⟨q, hq, hmissing⟩ := hmissing
    obtain rfl : q = place := by simpa using hq
    rw [List.nil_append, walk, checkDirectory_missing hmissing]
    rfl
  | cons c cs ih =>
    rw [List.scanl_cons] at hnone hmissing
    rw [List.forall_mem_cons] at hnone hnames
    rw [List.cons_append, walk]
    rcases hnone.1 with hplace | hplace
    · rw [checkDirectory_missing hplace]
      rfl
    · rw [checkDirectory_ok hplace, checkName_ok hnames.1]
      refine ih hnone.2 ?_ hnames.2
      obtain ⟨q, hq, hmissing⟩ := hmissing
      rcases List.mem_cons.mp hq with rfl | hq
      · exact absurd (hplace.symm.trans hmissing) (Option.some_ne_none _)
      · exact ⟨q, hq, hmissing⟩

theorem checkDirectory_eq_ok {d : Disk} {place : Place} (h : d.checkDirectory place = .ok ()) :
    d.entry? place = some .directory := by
  unfold checkDirectory at h
  split at h
  · cases h
  · cases h
  · assumption

theorem checkName_eq_ok {name : List Char} (h : checkName name = .ok ()) : bytesIn name ≤ 255 := by
  unfold checkName at h
  split at h
  · assumption
  · cases h

/-- Only directories are followed, by names that are not too long. -/
theorem walk_eq_ok {d : Disk} {cs : List (List Char)} {place r : Place}
    (h : d.walk place cs = .ok r) (hr : d.checkDirectory r = .ok ()) : r = cs.foldl follow place ∧
      (∀ q ∈ cs.scanl follow place, d.entry? q = some .directory) ∧ ∀ c ∈ cs, bytesIn c ≤ 255 := by
  induction cs generalizing place with
  | nil =>
    cases h
    exact ⟨rfl, by simpa using checkDirectory_eq_ok hr, by simp⟩
  | cons c cs ih =>
    simp only [walk, bind, Except.bind] at h
    split at h
    · cases h
    · next hplace =>
      split at h
      · cases h
      · next hname =>
        obtain ⟨hfold, hdirs, hnames⟩ := ih h
        refine ⟨hfold, ?_, ?_⟩
        · rw [List.scanl_cons, List.forall_mem_cons]
          exact ⟨checkDirectory_eq_ok hplace, hdirs⟩
        · rw [List.forall_mem_cons]
          exact ⟨checkName_eq_ok hname, hnames⟩

theorem checkPath_eq_ok {path : List Char} (h : checkPath path = .ok ()) :
    path ≠ [] ∧ bytesIn path < 4096 := by
  unfold checkPath at h
  split at h
  · cases h
  · split at h
    · exact ⟨‹_›, ‹_›⟩
    · cases h

/-- Places are made directories, and nothing else changes. -/
structure Made (d made : Disk) (places : List Place) : Prop where
  working : made.working = d.working
  entry : ∀ q, made.entry? q = if q ∈ places then some .directory else d.entry? q

namespace Made

variable {d d₁ d₂ : Disk} {ps qs : List Place}

theorem refl (h : ∀ q ∈ ps, d.entry? q = some .directory) : Made d d ps := by
  refine ⟨rfl, fun q => ?_⟩
  by_cases hq : q ∈ ps
  · rw [if_pos hq, h q hq]
  · rw [if_neg hq]

theorem trans (h₁ : Made d d₁ ps) (h₂ : Made d₁ d₂ qs) : Made d d₂ (ps ++ qs) := by
  refine ⟨h₂.working.trans h₁.working, fun q => ?_⟩
  rw [h₂.entry, h₁.entry]
  by_cases hp : q ∈ ps <;> by_cases hq : q ∈ qs <;> simp [hp, hq]

theorem congr (h : Made d d₁ ps) (hmem : ∀ q, q ∈ qs ↔ q ∈ ps) : Made d d₁ qs := by
  refine ⟨h.working, fun q => ?_⟩
  rw [h.entry]
  simp only [hmem]

theorem origin (h : Made d d₁ ps) (path : List Char) : d₁.origin path = d.origin path := by
  rw [Disk.origin, Disk.origin, h.working]

/-- What was made is there. -/
theorem directory (h : Made d d₁ ps) {q : Place} (hq : q ∈ ps) :
    d₁.entry? q = some .directory := by
  rw [h.entry, if_pos hq]

theorem put {place : Place} (h : place ≠ []) : Made d (d.put place .directory) [place] := by
  refine ⟨rfl, fun q => ?_⟩
  rw [entry?_put d h]
  simp only [List.mem_singleton]

end Made

/-- What is put in a directory leaves a tree, where it does not replace a directory by a file. -/
theorem IsTree.put {d : Disk} (h : d.IsTree) {place : Place} {e : Entry} (hplace : place ≠ [])
    (hparent : d.entry? place.dropLast = some .directory)
    (hkept : d.entry? place = some .directory → e = .directory) : (d.put place e).IsTree := by
  intro q hq
  have hdir : d.entry? q.dropLast = some .directory := by
    by_cases hqp : q = place
    · rwa [hqp]
    · rw [entry?_put d hplace, if_neg hqp] at hq
      exact h q hq
  rw [entry?_put d hplace]
  split
  · next hup => rw [hkept (hup ▸ hdir)]
  · exact hdir

/-- Where a component leads from a directory and nothing is, a directory can be made. -/
theorem IsTree.follow {d : Disk} (h : d.IsTree) {place : Place} {c : List Char}
    (hplace : d.entry? place = some .directory) (hnone : d.entry? (Disk.follow place c) = none) :
    Disk.follow place c ≠ [] ∧ d.entry? (Disk.follow place c).dropLast = some .directory := by
  have hup := h place (by rw [hplace]; exact Option.some_ne_none _)
  rw [Disk.follow] at hnone ⊢
  split at hnone
  · rw [hplace] at hnone
    cases hnone
  · split at hnone
    · rw [hup] at hnone
      cases hnone
    · rename_i hidle hdots
      rw [if_neg hidle, if_neg hdots]
      exact ⟨by simp, by rwa [List.dropLast_concat]⟩

/-- What is asked of a path to make it a directory. -/
structure Passable (d : Disk) (path : List Char) : Prop where
  clean : Clean path
  short : bytesIn path < 4096
  names : ∀ c ∈ split path, bytesIn c ≤ 255
  start : d.entry? (d.origin path) = some .directory
  unfiled : ∀ q ∈ (split path).scanl follow (d.origin path),
    d.entry? q = none ∨ d.entry? q = some .directory

theorem withoutSlashes_of_last {path : List Char} (h : path.getLast? ≠ some '/') :
    withoutSlashes path = path := by
  rcases List.eq_nil_or_concat path with rfl | ⟨y, c, rfl⟩
  · rfl
  · have hc : c ≠ '/' := fun hc => h (by simp [hc])
    simp [withoutSlashes, hc]

theorem getLast?_of_trimmed {path : List Char} (h : trimmed path = path) :
    path.getLast? ≠ some '/' := by
  intro hlast
  obtain ⟨b, hb⟩ := List.getLast?_eq_some_iff.mp hlast
  exact absurd (eq_nil_of_trimmed (h.trans hb) Idle.nil.slash) (by simp)

theorem withoutSlashes_of_clean {path : List Char} (h : Clean path) :
    (if path.all (· = '/') then path else withoutSlashes path) = path := by
  rcases h with rfl | ⟨-, htrimmed⟩
  · rfl
  · rw [withoutSlashes_of_last (getLast?_of_trimmed htrimmed), ite_self]

theorem foldl_mem_scanl (place : Place) (cs : List (List Char)) :
    cs.foldl follow place ∈ cs.scanl follow place := by
  rw [← List.getLast_scanl List.scanl_ne_nil]
  exact List.getLast_mem _

section Making

variable {d : Disk} {path : List Char} {cs : List (List Char)} {x : List Char}

theorem Passable.locate (h : d.Passable path) (hsplit : split path = cs ++ [x])
    (hdirs : ∀ q ∈ cs.scanl follow (d.origin path), d.entry? q = some .directory) :
    d.locate path = .ok (d.target path) := by
  have hnames := h.names
  rw [hsplit, List.forall_mem_append, List.forall_mem_singleton] at hnames
  have hpath := checkPath_ok h.clean.ne_nil h.short
  rw [Disk.locate, hpath, target, hsplit, List.foldl_append]
  change d.walk (d.origin path) (cs ++ [x]) = _
  rw [walk_append hdirs hnames.1, walk, checkDirectory_ok (hdirs _ (foldl_mem_scanl _ _)),
    checkName_ok hnames.2]
  rfl

theorem Passable.scanl_eq (hsplit : split path = cs ++ [x]) :
    (split path).scanl follow (d.origin path) =
      cs.scanl follow (d.origin path) ++ [d.target path] := by
  rw [target, hsplit, List.scanl_append, List.foldl_append]
  rfl

theorem Passable.locate_missing (h : d.Passable path) (hsplit : split path = cs ++ [x])
    (hmissing : ∃ q ∈ cs.scanl follow (d.origin path), d.entry? q = none) :
    d.locate path = .error .notFound := by
  have hnames := h.names
  have hunfiled := h.unfiled
  rw [hsplit, List.forall_mem_append] at hnames
  rw [scanl_eq hsplit, List.forall_mem_append] at hunfiled
  have hpath := checkPath_ok h.clean.ne_nil h.short
  rw [Disk.locate, hpath, hsplit]
  exact walk_missing hunfiled.1 hmissing hnames.1

/-- The ways a directory is found made. -/
def MakesAt (d made : Disk) (path : List Char) : Prop :=
  d.createDirectory path = .ok made ∨
    d.createDirectory path = .error .exists ∧ d.isDirectory path = true ∧ made = d

/-- One directory is made, if it is not there. -/
theorem Passable.make (h : d.Passable path) (htree : d.IsTree) (hsplit : split path = cs ++ [x])
    (hdirs : ∀ q ∈ cs.scanl follow (d.origin path), d.entry? q = some .directory) :
    ∃ made, Made d made [d.target path] ∧ made.IsTree ∧ MakesAt d made path := by
  have hlocate := h.locate hsplit hdirs
  have hunfiled := h.unfiled
  rw [scanl_eq hsplit, List.forall_mem_append, List.forall_mem_singleton] at hunfiled
  rcases hunfiled.2 with hnone | hdir
  · have htarget : d.target path = follow (cs.foldl follow (d.origin path)) x := by
      rw [target, hsplit, List.foldl_append]
      rfl
    obtain ⟨hne, hparent⟩ := htree.follow (hdirs _ (foldl_mem_scanl _ _)) (htarget ▸ hnone)
    rw [← htarget] at hne hparent
    refine ⟨_, .put hne, htree.put hne hparent fun _ => rfl, .inl ?_⟩
    rw [createDirectory, withoutSlashes_of_clean h.clean, hlocate]
    simp [bind, Except.bind, hnone, checkDirectory_ok hparent]
  · refine ⟨d, .refl (by simpa using hdir), htree, .inr ⟨?_, ?_, rfl⟩⟩
    · rw [createDirectory, withoutSlashes_of_clean h.clean, hlocate]
      simp [bind, Except.bind, hdir]
    · rw [isDirectory, hlocate]
      simp [checkDirectory_ok hdir, Except.isOk, Except.toBool]

theorem Passable.createDirectory_missing (h : d.Passable path) (hsplit : split path = cs ++ [x])
    (hmissing : ∃ q ∈ cs.scanl follow (d.origin path), d.entry? q = none) :
    d.createDirectory path = .error .notFound := by
  rw [createDirectory, withoutSlashes_of_clean h.clean, h.locate_missing hsplit hmissing]
  rfl

theorem createDirectories_of_makes {made : Disk} (depth : Nat) (hne : path ≠ [])
    (h : MakesAt d made path) : createDirectories (depth + 1) d path = (.ok (), made) := by
  rw [createDirectories, if_neg hne]
  rcases h with h | ⟨h, hdir, rfl⟩
  · simp only [h]
  · simp only [h, if_pos hdir]

theorem createDirectories_of_missing {made₁ made₂ : Disk} {parent : List Char} {depth : Nat}
    (hne : path ≠ []) (h : d.createDirectory path = .error .notFound)
    (hparent : parent? path = some parent)
    (hmade : createDirectories depth d parent = (.ok (), made₁))
    (hlast : MakesAt made₁ made₂ path) : createDirectories (depth + 1) d path = (.ok (), made₂) := by
  rw [createDirectories, if_neg hne]
  simp only [h, hparent, hmade]
  rcases hlast with h | ⟨h, hdir, rfl⟩
  · simp only [h]
  · simp only [h, if_pos hdir]

end Making

/-- Idle components lead nowhere else. -/
theorem mem_scanl_idle {idle : List (List Char)} (h : ∀ c ∈ idle, c = [] ∨ c = ['.'])
    (cs : List (List Char)) (start q : Place) :
    q ∈ (cs ++ idle).scanl follow start ↔ q ∈ cs.scanl follow start := by
  have hstay : ∀ (place : Place) {idle : List (List Char)}, (∀ c ∈ idle, c = [] ∨ c = ['.']) →
      ∀ r ∈ idle.scanl follow place, r = place := by
    intro place idle h
    induction idle with
    | nil => simp
    | cons c idle ih =>
      rw [List.forall_mem_cons] at h
      have hc : follow place c = place := by rcases h.1 with rfl | rfl <;> rfl
      rw [List.scanl_cons, hc, List.forall_mem_cons]
      exact ⟨rfl, ih h.2⟩
  rw [List.scanl_append, List.mem_append]
  refine ⟨fun hq => hq.elim id fun hq => ?_, .inl⟩
  rw [hstay _ h q (List.mem_of_mem_tail hq)]
  exact foldl_mem_scanl _ _

theorem bytesIn_append (a b : List Char) : bytesIn (a ++ b) = bytesIn a + bytesIn b := by
  simp [bytesIn, String.ofList_append]

section Parent

variable {d : Disk} {parent path : List Char} {cs : List (List Char)} {x : List Char}

/-- A path leads through the places that its parent leads through. -/
theorem mem_scanl_parent (h : ParentOf parent path cs) (start q : Place) :
    q ∈ (split parent).scanl follow start ↔ q ∈ cs.scanl follow start := by
  obtain ⟨kept, extra, idle, hparent, hkept, hidle⟩ := h.components
  rw [List.forall_mem_append] at hidle
  rw [hparent, mem_scanl_idle hidle.1, ← mem_scanl_idle hidle.2, hkept,
    mem_scanl_idle (by simp)]

theorem origin_parent (h : ParentOf parent path cs) (d : Disk) :
    d.origin parent = d.origin path := by
  obtain ⟨rest, hrest⟩ := h.start
  obtain ⟨c, tail, hc⟩ := List.exists_cons_of_ne_nil h.clean.ne_nil
  rw [origin, origin, ← hrest, hc]
  rfl

/-- The parent of a path can be made, if no file is in the way. -/
theorem passable_parent (hparent : ParentOf parent path cs) (hshort : bytesIn path < 4096)
    (hnames : ∀ c ∈ cs, bytesIn c ≤ 255) (hstart : d.entry? (d.origin path) = some .directory)
    (hunfiled : ∀ q ∈ cs.scanl follow (d.origin path),
      d.entry? q = none ∨ d.entry? q = some .directory) : d.Passable parent := by
  refine ⟨hparent.clean, ?_, ?_, ?_, ?_⟩
  · obtain ⟨rest, hrest⟩ := hparent.start
    rw [← hrest, bytesIn_append] at hshort
    omega
  · obtain ⟨kept, extra, idle, hsplit, hkept, hidle⟩ := hparent.components
    have hsmall : ∀ c : List Char, c = [] ∨ c = ['.'] → bytesIn c ≤ 255 := by
      rintro c (rfl | rfl) <;> decide +kernel
    rw [hsplit]
    intro c hc
    rcases List.mem_append.mp hc with hc | hc
    · have hc := List.mem_append_left idle hc
      rw [hkept, List.mem_append, List.mem_singleton] at hc
      exact hc.elim (hnames c) fun hnil => hsmall c (.inl hnil)
    · exact hsmall c (hidle c (List.mem_append_left _ hc))
  · rwa [origin_parent hparent]
  · intro q hq
    rw [origin_parent hparent, mem_scanl_parent hparent] at hq
    exact hunfiled q hq

/-- A path is passable where more directories are. -/
theorem Made.passable {made : Disk} {ps : List Place} (hmade : Made d made ps)
    (h : d.Passable path) : made.Passable path := by
  have hdir : ∀ q, d.entry? q = some .directory → made.entry? q = some .directory := by
    intro q hq
    rw [hmade.entry, hq, ite_self]
  refine ⟨h.clean, h.short, h.names, ?_, fun q hq => ?_⟩
  · rw [hmade.origin]
    exact hdir _ h.start
  · rw [hmade.origin] at hq
    rw [hmade.entry]
    split
    · exact .inr rfl
    · exact h.unfiled q hq

/-- Where a directory on the way is missing there is a parent, since the top and the directory a
path starts in are there. -/
theorem Passable.exists_parentOf (h : d.Passable path) (hsplit : split path = cs ++ [x])
    (hmissing : ∃ q ∈ cs.scanl follow (d.origin path), d.entry? q = none) :
    ∃ parent, parent? path = some parent ∧ ParentOf parent path cs := by
  have hdirs : ¬ ∀ q ∈ cs.scanl follow (d.origin path), d.entry? q = some .directory := by
    intro hdirs
    obtain ⟨q, hq, hnone⟩ := hmissing
    exact absurd (hnone.symm.trans (hdirs q hq)) (by simp)
  have htrimmed : trimmed path = path := by
    rcases h.clean with rfl | ⟨-, htrimmed⟩
    · obtain ⟨rfl, -⟩ := List.append_inj' (show [[]] ++ [[]] = cs ++ [x] from hsplit) rfl
      exact absurd (by simp [origin, follow]) hdirs
    · exact htrimmed
  obtain ⟨cs', x', parent, hsplit', hparent, hcases⟩ := exists_parent h.clean.ne_nil htrimmed
  obtain ⟨rfl, -⟩ := List.append_inj' (hsplit.symm.trans hsplit') rfl
  rcases hcases with ⟨-, rfl⟩ | hof
  · exact absurd (by simpa using h.start) hdirs
  · exact ⟨parent, hparent, hof⟩

/-- **The directories a path leads through are made, and nothing else changes.** -/
theorem Passable.createDirectories {depth : Nat} : ∀ {d : Disk} {path : List Char},
    path.length < depth → d.Passable path → d.IsTree →
    ∃ made, Disk.createDirectories depth d path = (.ok (), made) ∧
      Made d made ((split path).scanl follow (d.origin path)) ∧ made.IsTree := by
  induction depth with
  | zero => intro d path hdepth; omega
  | succ depth ih =>
    intro d path hdepth h htree
    obtain ⟨cs, x, hsplit⟩ := exists_split path
    -- The last directory is made at once if those in front of it are there. If not, the attempt
    -- fails for the first that is missing, and the parent is made by the depth that is left.
    by_cases hdirs : ∀ q ∈ cs.scanl follow (d.origin path), d.entry? q = some .directory
    · obtain ⟨made, hmade, htree', hmakes⟩ := h.make htree hsplit hdirs
      refine ⟨made, createDirectories_of_makes depth h.clean.ne_nil hmakes, ?_, htree'⟩
      rw [scanl_eq hsplit]
      exact (Made.refl hdirs).trans hmade
    · have hnames := h.names
      have hunfiled := h.unfiled
      rw [hsplit, List.forall_mem_append] at hnames
      rw [scanl_eq hsplit, List.forall_mem_append] at hunfiled
      have hmissing : ∃ q ∈ cs.scanl follow (d.origin path), d.entry? q = none := by
        push Not at hdirs
        obtain ⟨q, hq, hne⟩ := hdirs
        exact ⟨q, hq, (hunfiled.1 q hq).resolve_right hne⟩
      obtain ⟨parent, hparent, hof⟩ := h.exists_parentOf hsplit hmissing
      have hshorter := hof.shorter
      obtain ⟨made₁, hrec, hmade₁, htree₁⟩ :=
        ih (by omega) (passable_parent hof h.short hnames.1 h.start hunfiled.1) htree
      rw [origin_parent hof] at hmade₁
      have hmade₁ := hmade₁.congr fun q => (mem_scanl_parent hof _ q).symm
      obtain ⟨made₂, hmade₂, htree₂, hmakes⟩ := (hmade₁.passable h).make htree₁ hsplit
        (by rw [hmade₁.origin]; exact fun q hq => hmade₁.directory hq)
      refine ⟨made₂, createDirectories_of_missing h.clean.ne_nil
        (h.createDirectory_missing hsplit hmissing) hparent hrec hmakes, ?_, htree₂⟩
      have htarget : made₁.target path = d.target path := by
        rw [target, target, hmade₁.origin]
      rw [htarget] at hmade₂
      rw [scanl_eq hsplit]
      exact hmade₁.trans hmade₂

end Parent

/-- A disk with directories where nothing was. -/
structure Grown (d grown : Disk) : Prop where
  working : grown.working = d.working
  entry : ∀ q, grown.entry? q = d.entry? q ∨
    d.entry? q = none ∧ grown.entry? q = some .directory

namespace Grown

variable {d d₁ d₂ : Disk}

theorem refl : Grown d d := ⟨rfl, fun _ => .inl rfl⟩

theorem trans (h₁ : Grown d d₁) (h₂ : Grown d₁ d₂) : Grown d d₂ := by
  refine ⟨h₂.working.trans h₁.working, fun q => ?_⟩
  rcases h₁.entry q with h | ⟨hnone, hdir⟩ <;> rcases h₂.entry q with h' | ⟨hnone', hdir'⟩
  · exact .inl (h'.trans h)
  · exact .inr ⟨h.symm.trans hnone', hdir'⟩
  · exact .inr ⟨hnone, h'.trans hdir⟩
  · exact .inr ⟨hnone, hdir'⟩

theorem origin (h : Grown d d₁) (path : List Char) : d₁.origin path = d.origin path := by
  rw [Disk.origin, Disk.origin, h.working]

theorem put {place : Place} (h : d.entry? place = none) : Grown d (d.put place .directory) := by
  have hplace : place ≠ [] := by
    rintro rfl
    cases h
  refine ⟨rfl, fun q => ?_⟩
  rw [entry?_put d hplace]
  by_cases hq : q = place
  · rw [if_pos hq, hq]
    exact .inr ⟨h, rfl⟩
  · exact .inl (if_neg hq)

theorem createDirectory {path : List Char} (h : d.createDirectory path = .ok d₁) : Grown d d₁ := by
  simp only [Disk.createDirectory, bind, Except.bind] at h
  split at h
  · cases h
  · split at h
    · cases h
    · next hnone =>
      split at h <;> cases h
      exact put hnone

/-- **Making directories leaves what is there**, also where it fails. -/
theorem createDirectories (depth : Nat) (d : Disk) (path : List Char) :
    Grown d (Disk.createDirectories depth d path).2 := by
  induction depth generalizing d path with
  | zero => exact refl
  | succ depth ih =>
    have hmake : ∀ {d' : Disk}, Grown d d' → ∀ e, Grown d
        (if d'.isDirectory path then (.ok (), d')
          else (.error e, d') : Except HostError Unit × Disk).2 := by
      intro d' h e
      split <;> exact h
    rw [Disk.createDirectories]
    split
    · exact refl
    · dsimp only
      split
      · next h => exact createDirectory h
      · split
        · exact refl
        · next parent _ =>
          have hparent := ih d parent
          split
          · next hrec =>
            rw [hrec] at hparent
            exact hparent
          · next hrec =>
            rw [hrec] at hparent
            split
            · next h => exact hparent.trans (createDirectory h)
            · exact hmake hparent _
      · exact hmake refl _

end Grown

end ScriptLang.Disk
