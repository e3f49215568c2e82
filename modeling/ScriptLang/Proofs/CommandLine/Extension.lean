import ScriptLang.Proofs.CommandLine.Writing

/-!
# Derived paths

A source leaves an assembly, and an assembly an executable, each at a path that differs from
the path before it in its file name only.
-/

namespace ScriptLang.Path

theorem stem_of_point {s e : List Char} (hs : s ≠ []) (he : '.' ∉ e) :
    stem (s ++ '.' :: e) = s ∧ extension (s ++ '.' :: e) = e := by
  have hall : ∀ c ∈ e.reverse, decide (c ≠ '.') = true := by
    intro c hc
    rw [List.mem_reverse] at hc
    exact decide_eq_true fun h => he (h ▸ hc)
  have hstem : stem (s ++ '.' :: e) = s := by
    obtain ⟨c, cs, hcs⟩ := List.exists_cons_of_ne_nil hs
    rw [stem, List.reverse_append, List.reverse_cons, List.append_assoc,
      List.dropWhile_append_of_pos hall]
    simp [hcs]
  exact ⟨hstem, by rw [extension, hstem]; simp⟩

/-- A name has no extension, or its stem, a point and its extension make it up. -/
theorem stem_cases (name : List Char) : stem name = name ∧ extension name = [] ∨
    ∃ s e, name = s ++ '.' :: e ∧ s ≠ [] ∧ '.' ∉ e := by
  have hwhole (h : stem name = name) : stem name = name ∧ extension name = [] :=
    ⟨h, by rw [extension, h, List.drop_eq_nil_iff]; omega⟩
  cases hr : name.reverse.dropWhile (· ≠ '.') with
  | nil => exact .inl (hwhole (by rw [stem, hr]; rfl))
  | cons c r =>
    have hc : c = '.' := by
      have h := List.head?_dropWhile_not (· ≠ '.') name.reverse
      rw [hr] at h
      simpa using h
    by_cases hnil : r = []
    · exact .inl (hwhole (by rw [stem, hr, hnil]; rfl))
    · refine .inr ⟨r.reverse, (name.reverse.takeWhile (· ≠ '.')).reverse, ?_, by simpa, ?_⟩
      · have hsplit := List.takeWhile_append_dropWhile (p := (· ≠ '.')) (l := name.reverse)
        rw [hr, hc] at hsplit
        have hname := congrArg List.reverse hsplit
        simpa using hname.symm
      · intro hmem
        rw [List.mem_reverse] at hmem
        simpa using List.mem_takeWhile_imp hmem

/-- An extension with its point. -/
def suffix (new : List Char) : List Char := if new = [] then [] else '.' :: new

theorem fileName_parts {before x t : List Char} (hb : Leads before) (hx : Counts x)
    (ht : Idle t) : fileName? (before ++ x ++ t) = if x = ['.', '.'] then none else some x := by
  rw [fileName?, (parts_component hb hx ht).1]
  by_cases hdots : x = ['.', '.'] <;> simp [hdots, hx.ne_nil, hx.ne_point]

theorem afterStem_parts {before x t : List Char} (hb : Leads before) (hx : Counts x)
    (ht : Idle t) (hdots : x ≠ ['.', '.']) (new : List Char) :
    afterStem (before ++ x ++ t) new = before ++ stem x ++ suffix new := by
  rw [afterStem, fileName_parts hb hx ht, if_neg hdots, (parts_component hb hx ht).2]
  rfl

theorem eq_dots_iff {s e : List Char} (hs : s ≠ []) :
    s ++ '.' :: e = ['.', '.'] ↔ s = ['.'] ∧ e = [] := by
  obtain ⟨c, s, rfl⟩ := List.exists_cons_of_ne_nil hs
  simp [List.append_eq_cons_iff, and_assoc]

/-- A path that is made shorter by the extension of its last component. An idle tail takes
part in that. -/
theorem take_parts (before s e t : List Char) :
    (before ++ (s ++ '.' :: e) ++ t).take ((before ++ (s ++ '.' :: e) ++ t).length - e.length) =
      before ++ (s ++ '.' :: e.take t.length) ++ t.take (t.length - e.length) := by
  have hassoc : before ++ (s ++ '.' :: e) ++ t = (before ++ (s ++ ['.'])) ++ (e ++ t) := by simp
  have hlength : (before ++ (s ++ '.' :: e) ++ t).length - e.length =
      (before ++ (s ++ ['.'])).length + t.length := by
    simp only [List.length_append, List.length_cons, List.length_nil]
    omega
  rw [hlength, hassoc, List.take_length_add_append, List.take_append]
  simp

theorem Counts.shortened {s e : List Char} (hx : Counts (s ++ '.' :: e)) (hs : s ≠ []) (n : Nat) :
    Counts (s ++ '.' :: e.take n) := by
  refine ⟨fun hmem => hx.single ?_, by simp, fun h => hs ?_⟩
  · simp only [List.mem_append, List.mem_cons] at hmem ⊢
    exact hmem.imp_right (Or.imp_right List.mem_of_mem_take)
  · have hlength := congrArg List.length h
    simp only [List.length_append, List.length_cons, List.length_nil] at hlength
    exact List.eq_nil_of_length_eq_zero (by omega)

/-- The path with another extension. What is left of a name such as `..x` without its
extension is the directory above. -/
theorem withExtension_parts {before x t : List Char} (hb : Leads before) (hx : Counts x)
    (ht : Idle t) (hdots : x ≠ ['.', '.']) (new : List Char) :
    withExtension (before ++ x ++ t) new =
      if stem x = ['.'] ∧ t = [] then before ++ ['.', '.'] else before ++ stem x ++ suffix new := by
  rw [withExtension, fileName_parts hb hx ht, if_neg hdots, Option.getD_some]
  rcases stem_cases x with ⟨hstem, hext⟩ | ⟨s, e, rfl, hs, he⟩
  · rw [hext, List.length_nil, Nat.sub_zero, List.take_length, afterStem_parts hb hx ht hdots,
      if_neg fun h => hx.ne_point (hstem ▸ h.1)]
  · obtain ⟨hstem, hext⟩ := stem_of_point hs he
    have hcounts := hx.shortened hs t.length
    -- What is cut off is as long as the extension, but is cut off behind the idle tail: this
    -- takes the extension's place as far as it goes.
    have hup : s ++ '.' :: e.take t.length = ['.', '.'] ↔ s = ['.'] ∧ t = [] := by
      rw [eq_dots_iff hs, List.take_eq_nil_iff, List.length_eq_zero_iff]
      rw [Ne, eq_dots_iff hs] at hdots
      tauto
    rw [hstem, hext, take_parts]
    by_cases h : s = ['.'] ∧ t = []
    · rw [if_pos h, afterStem, fileName_parts hb hcounts (ht.take _), if_pos (hup.mpr h), hup.mpr h,
        h.2]
      simp
    · rw [if_neg h, afterStem_parts hb hcounts (ht.take _) (mt hup.mp h),
        (stem_of_point hs fun hmem => he (List.mem_of_mem_take hmem)).1]

/-- Paths with the same text before their last components are equal as these are. -/
theorem significant_parts {before : List Char} (hb : Leads before) :
    ∃ base, ∀ {x t : List Char}, Counts x → Idle t →
      significant (before ++ x ++ t) = base ++ [x] := by
  have hnone : ∀ {cs : List (List Char)}, (∀ c ∈ cs, c = [] ∨ c = ['.']) →
      cs.filter (fun c => c ≠ [] && c ≠ ['.']) = [] := by
    intro cs hcs
    rw [List.filter_eq_nil_iff]
    intro c hc
    rcases hcs c hc with rfl | rfl <;> simp
  rcases hb with rfl | ⟨b, rfl⟩
  · refine ⟨[], fun {x t} hx ht => ?_⟩
    obtain ⟨cs, hcs, hidle⟩ := ht.split_append x
    have hhead : ([] ++ x ++ t).head? ≠ some '/' := by
      obtain ⟨c, x, rfl⟩ := List.exists_cons_of_ne_nil hx.ne_nil
      have hc := hx.single
      simp only [List.mem_cons, not_or] at hc
      simpa using Ne.symm hc.1
    have hparts : split ([] ++ x ++ t) = x :: cs := by
      rw [List.nil_append, hcs, split_name hx.single]
      rfl
    rw [significant, hparts]
    simp only [if_neg hhead, if_neg hx.ne_nil, hnone hidle]
    rfl
  · obtain ⟨first, rest, hsplit⟩ := List.exists_cons_of_ne_nil (split_ne_nil b)
    refine ⟨(if (b ++ ['/']).head? = some '/' then [['/']] else if first = [] then [] else [first])
      ++ rest.filter fun c => c ≠ [] && c ≠ ['.'], fun {x t} hx ht => ?_⟩
    obtain ⟨cs, hcs, hidle⟩ := ht.split_append x
    have hparts : split (b ++ ['/'] ++ x ++ t) = first :: (rest ++ x :: cs) := by
      rw [List.append_assoc, List.append_assoc, List.singleton_append, split_slash, hcs,
        split_name hx.single, hsplit]
      simp
    have hhead : (b ++ ['/'] ++ x ++ t).head? = (b ++ ['/']).head? := by
      cases b <;> rfl
    have hlast : (x :: cs).filter (fun c => c ≠ [] && c ≠ ['.']) = [x] := by
      rw [List.filter_cons_of_pos (by simp [hx.ne_nil, hx.ne_point]), hnone hidle]
    rw [significant, hparts, hhead]
    simp only [List.filter_append, hlast, List.append_assoc]

/-- Paths that are equal component by component. -/
def Same (a b : String) : Prop := significant a.toList = significant b.toList

instance (a b : String) : Decidable (Same a b) := inferInstanceAs (Decidable (_ = _))

/-- A path with a file name, cut there. -/
theorem exists_parts {p name : List Char} (h : fileName? p = some name) : ∃ before t,
    p = before ++ name ++ t ∧ Leads before ∧ Counts name ∧ name ≠ ['.', '.'] ∧ Idle t := by
  obtain ⟨t, ht, hp, hb, hsingle, -⟩ := exists_last p
  rw [fileName?] at h
  split at h
  · cases h
  · rename_i hspecial
    obtain rfl := Option.some.inj h
    simp only [Bool.or_eq_true, decide_eq_true_eq, not_or] at hspecial
    exact ⟨_, t, hp, hb, ⟨hsingle, hspecial.1.1, hspecial.1.2⟩, hspecial.2, ht⟩

theorem withExtension_of_none {p : List Char} (h : fileName? p = none) (new : List Char) :
    withExtension p new = p := by
  have hext : extension [] = [] := rfl
  rw [withExtension, h, Option.getD_none, hext, List.length_nil, Nat.sub_zero, List.take_length,
    afterStem, h]

theorem stem_ne_nil {name : List Char} (h : name ≠ []) : stem name ≠ [] := by
  rcases stem_cases name with ⟨hstem, -⟩ | ⟨s, e, rfl, hs, he⟩
  · rwa [hstem]
  · rwa [(stem_of_point hs he).1]

theorem slash_notMem_stem {name : List Char} (h : '/' ∉ name) : '/' ∉ stem name := by
  rcases stem_cases name with ⟨hstem, -⟩ | ⟨s, e, rfl, hs, he⟩
  · rwa [hstem]
  · rw [(stem_of_point hs he).1]
    exact fun hmem => h (List.mem_append_left _ hmem)

/-- An assembly is named for the stem of its source. -/
theorem counts_assembly {s : List Char} (hs : s ≠ []) (hsingle : '/' ∉ s) :
    Counts (s ++ ['.', 's']) ∧ s ++ ['.', 's'] ≠ ['.', '.'] := by
  refine ⟨⟨by simpa using hsingle, by simp, ?_⟩, ?_⟩
  · intro h
    have hlength := congrArg List.length h
    simp at hlength
  · rw [Ne, eq_dots_iff hs]
    simp

/-- The component an executable has in place of that of its assembly. -/
def bareName (s : List Char) : List Char := if s = ['.'] then ['.', '.'] else s

theorem bareName_ne (s : List Char) : bareName s ≠ s ++ ['.', 's'] := by
  unfold bareName
  split
  · simp [‹s = ['.']›]
  · simp

theorem counts_bareName {s : List Char} (hs : s ≠ []) (hsingle : '/' ∉ s) :
    Counts (bareName s) := by
  unfold bareName
  split
  · exact ⟨by simp, by simp, by simp⟩
  · exact ⟨hsingle, hs, ‹_›⟩

theorem executable_parts {before s : List Char} (hb : Leads before) (hs : s ≠ [])
    (hsingle : '/' ∉ s) : executable (String.ofList (before ++ (s ++ ['.', 's']))) =
      String.ofList (before ++ bareName s) := by
  obtain ⟨hcounts, hdots⟩ := counts_assembly hs hsingle
  obtain ⟨base, hbase⟩ := significant_parts hb
  have hbare : withExtension (before ++ (s ++ ['.', 's'])) [] = before ++ bareName s := by
    have h := withExtension_parts hb hcounts Idle.nil hdots []
    rw [List.append_nil, (stem_of_point hs (by simp)).1] at h
    rw [h, bareName]
    by_cases hup : s = ['.'] <;> simp [hup, suffix]
  have hne : significant (before ++ bareName s) ≠ significant (before ++ (s ++ ['.', 's'])) := by
    have h₁ := hbase (counts_bareName hs hsingle) Idle.nil
    have h₂ := hbase hcounts Idle.nil
    rw [List.append_nil] at h₁ h₂
    rw [h₁, h₂]
    simpa using bareName_ne s
  rw [executable, String.toList_ofList, hbare, if_neg hne]

/-- Nothing is written to a path without a file name. -/
theorem write_of_none {p : List Char} (h : fileName? p = none) (d : Disk) (bytes : ByteArray) :
    ∃ e, d.write p bytes = .error e := by
  cases hwrite : d.write p bytes with
  | error e => exact ⟨e, rfl⟩
  | ok written =>
    obtain ⟨cs, x, hsplit, -, ⟨hnil, hpoint, hdots⟩, -⟩ := Disk.exists_of_write hwrite
    obtain ⟨b, rfl, hb, hsingle⟩ := exists_of_split hsplit
    have hname := fileName_parts hb ⟨hsingle, hnil, hpoint⟩ Idle.nil
    rw [List.append_nil, h, if_neg hdots] at hname
    cases hname

theorem assembly_of_none {source : String} (h : fileName? source.toList = none) :
    assembly source = source := by
  rw [assembly, withExtension_of_none h, String.ofList_toList]

theorem executable_of_none {a : String} (h : fileName? a.toList = none) : executable a = a := by
  rw [executable, withExtension_of_none h, if_pos rfl, withExtension_of_none h,
    String.ofList_toList]

theorem extension_eq_iff {name : List Char} :
    extension name = ['s'] ↔ stem name ++ ['.', 's'] = name := by
  rcases stem_cases name with ⟨hstem, hext⟩ | ⟨s, e, rfl, hs, he⟩
  · rw [hstem, hext]
    simp
  · obtain ⟨hstem, hext⟩ := stem_of_point hs he
    rw [hstem, hext]
    simp [eq_comm]

theorem bareName_stem_eq_iff {name : List Char} (hdots : name ≠ ['.', '.'])
    (hpoint : name ≠ ['.']) :
    bareName (stem name) = name ↔ stem name = name := by
  unfold bareName
  split
  · rename_i hstem
    rw [hstem]
    simp [Ne.symm hdots, Ne.symm hpoint]
  · rfl

/-- The paths derived from a source with a file name, as far as they tell each other apart. -/
theorem derived_cases {source : String} {name : List Char}
    (h : fileName? source.toList = some name) :
    ∃ base, significant source.toList = base ++ [name] ∧
      (fileName? (assembly source).toList = none ∧
          significant (assembly source).toList = base ++ [['.', '.']] ∨
        fileName? (assembly source).toList ≠ none ∧
          significant (assembly source).toList = base ++ [stem name ++ ['.', 's']] ∧
          significant (executable (assembly source)).toList = base ++ [bareName (stem name)]) := by
  obtain ⟨before, t, hp, hb, hx, hdots, ht⟩ := exists_parts h
  obtain ⟨base, hbase⟩ := significant_parts hb
  have hassembly := withExtension_parts hb hx ht hdots ['s']
  rw [← hp] at hassembly
  refine ⟨base, by rw [hp, hbase hx ht], ?_⟩
  by_cases hup : stem name = ['.'] ∧ t = []
  · have hcounts : Counts ['.', '.'] := ⟨by simp, by simp, by simp⟩
    rw [if_pos hup, ← List.append_nil (before ++ _)] at hassembly
    rw [assembly, String.toList_ofList, hassembly]
    exact .inl ⟨by rw [fileName_parts hb hcounts .nil, if_pos rfl], hbase hcounts .nil⟩
  · have hs := stem_ne_nil hx.ne_nil
    have hsingle := slash_notMem_stem hx.single
    obtain ⟨hcounts, hdots'⟩ := counts_assembly hs hsingle
    have hassembly : assembly source = String.ofList (before ++ (stem name ++ ['.', 's'])) := by
      rw [assembly, hassembly, if_neg hup, List.append_assoc]
      rfl
    have hexecutable := executable_parts hb hs hsingle
    rw [hassembly, hexecutable, String.toList_ofList, String.toList_ofList,
      ← List.append_nil (before ++ _), ← List.append_nil (before ++ bareName _)]
    refine .inr ⟨?_, hbase hcounts .nil, hbase (counts_bareName hs hsingle) .nil⟩
    rw [fileName_parts hb hcounts .nil, if_neg hdots']
    exact Option.some_ne_none _

/-- **The paths of an assembly and an executable.** An assembly has the path of its source
exactly if this has the extension `s`, or no file name at all. An executable never has the path
of its assembly, unless nothing can be written there, and it has the path of the source exactly
if this has no extension. -/
theorem derived_paths (source : String) :
    (Same (assembly source) source ↔ ∀ name, fileName? source.toList = some name →
      extension name = ['s'] ∧ fileName? (assembly source).toList ≠ none) ∧
    (Same (executable (assembly source)) (assembly source) ↔
      fileName? (assembly source).toList = none) ∧
    (fileName? (assembly source).toList ≠ none → (Same (executable (assembly source)) source ↔
      ∀ name, fileName? source.toList = some name → stem name = name)) ∧
    (fileName? (assembly source).toList = none → ∀ (d : Disk) (bytes : ByteArray),
      ∃ e, d.write (assembly source).toList bytes = .error e) := by
  cases hname : fileName? source.toList with
  | none =>
    rw [assembly_of_none hname, executable_of_none hname]
    exact ⟨⟨fun _ => nofun, fun _ => rfl⟩, ⟨fun _ => hname, fun _ => rfl⟩,
      fun h => absurd hname h, fun h => write_of_none h⟩
  | some name =>
    obtain ⟨-, -, -, -, hx, hdots, -⟩ := exists_parts hname
    obtain ⟨base, hsource, ⟨hnone, hassembly⟩ | ⟨hfile, hassembly, hexecutable⟩⟩ :=
      derived_cases hname
    · refine ⟨iff_of_false ?_ ?_, ⟨fun _ => hnone, fun _ => ?_⟩, fun h => absurd hnone h,
        fun h => write_of_none h⟩
      · simp [Same, hassembly, hsource, Ne.symm hdots]
      · exact fun h => (h name rfl).2 hnone
      · rw [Same, executable_of_none hnone]
    · refine ⟨?_, iff_of_false ?_ hfile, fun _ => ?_, fun h => absurd h hfile⟩
      · simp [Same, hassembly, hsource, extension_eq_iff, hfile]
      · simp [Same, hexecutable, hassembly, bareName_ne]
      · simp [Same, hexecutable, hsource, bareName_stem_eq_iff hdots hx.ne_point]

/-- With several points in the name the three paths differ. -/
theorem derived_paths_points : let source := "lib/tool.v2.kt"
    fileName? (assembly source).toList ≠ none ∧ ¬ Same (assembly source) source ∧
    ¬ Same (executable (assembly source)) (assembly source) ∧
    ¬ Same (executable (assembly source)) source := by
  intro source
  have hname : fileName? source.toList = some "tool.v2.kt".toList := by decide +kernel
  have hfile : fileName? (assembly source).toList ≠ none := by decide +kernel
  obtain ⟨hassembly, hexecutable, hsource, -⟩ := derived_paths source
  refine ⟨hfile, fun h => ?_, fun h => hfile (hexecutable.mp h), fun h => ?_⟩
  · exact absurd (hassembly.mp h _ hname).1 (by decide +kernel)
  · exact absurd ((hsource hfile).mp h _ hname) (by decide +kernel)

/-- A source with the extension of an assembly, and one without an extension. -/
theorem derived_paths_meet :
    Same (assembly "prog.s") "prog.s" ∧ ¬ Same (assembly "prog") "prog" ∧
      Same (executable (assembly "prog")) "prog" := by
  decide +kernel

end ScriptLang.Path
