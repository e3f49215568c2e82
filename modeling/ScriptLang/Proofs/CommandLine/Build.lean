import ScriptLang.CommandLine.Command
import ScriptLang.Proofs.CommandLine.Writing
import ScriptLang.Proofs.Computation

/-!
# Builds are whole or nothing

A build writes the assembly of a source when all else is done: where the source cannot be read
or compiled the disk stays as it was, and otherwise the assembly is the only file that changes.
-/

namespace ScriptLang

/-- A source that is compiled was read, and then its program was compiled. -/
theorem compileSource_eq_ok {source file : String} {compiled : Compiled}
    (h : compileSource source file = .ok compiled) :
    ∃ p, Program.ofSource source file = .ok p ∧ p.compile = .ok compiled := by
  unfold compileSource at h
  split at h
  · cases h
  · next p hp =>
    split at h
    · next c hc =>
      cases h
      exact ⟨p, hp, hc⟩
    · cases h

namespace Desk

/-- A desk with more text on its error channel. -/
def report (desk : Desk) (text : String) : Desk := { desk with errors := desk.errors ++ text }

variable {α β : Type} (linkers : Linkers) (time : String) (desk : Desk)

theorem bind_run (x : StateM Desk α) (f : α → StateM Desk β) :
    (x >>= f) desk = f (x desk).1 (x desk).2 := rfl

theorem pure_run (a : α) : (pure a : StateM Desk α) desk = (a, desk) := rfl

theorem readFile_run (path : String) :
    (host linkers time).readFile path desk = (desk.disk.read path.toList, desk) := rfl

theorem printError_run (text : String) :
    (host linkers time).printError text desk = ((), desk.report text) := rfl

theorem clock_run : (host linkers time).clock desk = (0, desk) := rfl

theorem createDirectories_run (path : String) :
    (host linkers time).createDirectories path desk =
      ((Disk.createDirectories (path.length + 1) desk.disk path.toList).1,
        { desk with disk := (Disk.createDirectories (path.length + 1) desk.disk path.toList).2 }) :=
  rfl

theorem writeFile_run (path text : String) : (host linkers time).writeFile path text desk =
    match desk.disk.write path.toList text.toUTF8 with
    | .ok disk => (.ok (), { desk with disk := disk })
    | .error e => (.error e, desk) := by
  change (match desk.disk.write path.toList text.toUTF8 with
    | .ok disk => _
    | .error e => _ : StateM Desk _) desk = _
  cases desk.disk.write path.toList text.toUTF8 <;> rfl

end Desk

namespace Command

open Desk

variable (linkers : Linkers) (time : String) {desk : Desk}

/-- The line that tells the time of a phase, if times are asked for. -/
def timeLine (timings : Bool) (time phase : String) : String :=
  if timings then s!"{phase} {time}\n" else ""

theorem report_empty (desk : Desk) : desk.report "" = desk := by
  rw [Desk.report, String.append_empty]

theorem reportTime_run (desk : Desk) (timings : Bool) (phase : String) (start : Nat) :
    reportTime (Desk.host linkers time) timings phase start desk =
      ((), desk.report (timeLine timings time phase)) := by
  cases timings with
  | false =>
    rw [timeLine, if_neg Bool.false_ne_true, report_empty]
    rfl
  | true => rfl

theorem execute_unreadable {c : Command} {e : HostError}
    (h : desk.disk.read c.file.toList = .error e) : ∃ text,
      c.execute (Desk.host linkers time) desk = (.failure, desk.report text) := by
  refine ⟨s!"error: failed to read source file {c.file}: {e.text}\n", ?_⟩
  rw [execute, bind_run, readFile_run, h]
  rfl

theorem execute_readable {c : Command} {options : BuildOptions} {source : String}
    (haction : c.action = .build options) (h : desk.disk.read c.file.toList = .ok source) :
    c.execute (Desk.host linkers time) desk =
      buildText (Desk.host linkers time) c.timings options c.file source (Path.display c.file)
        desk := by
  rw [execute, bind_run, readFile_run, h, haction]

theorem report_report (desk : Desk) (a b : String) :
    (desk.report a).report b = desk.report (a ++ b) := by
  simp only [Desk.report, String.append_assoc]

theorem reportHalt_run (desk : Desk) (source file : String) (halt : Halt) : ∃ text,
    reportHalt (Desk.host linkers time) source file halt desk = ((), desk.report text) :=
  ⟨_, rfl⟩

/-- A source that is refused is reported, and that is all. -/
theorem buildText_refused (desk : Desk) (timings : Bool) (options : BuildOptions) (path : String)
    {source file : String} {halt : Halt} (h : compileSource source file = .error halt) : ∃ text,
      buildText (Desk.host linkers time) timings options path source file desk =
        (.failure, desk.report text) := by
  rw [compileSource] at h
  rw [buildText, bind_run, clock_run]
  cases hp : Program.ofSource source file with
  | error halt' =>
    obtain ⟨text, hreport⟩ := reportHalt_run linkers time desk source file halt'
    dsimp only
    exact ⟨text, by rw [bind_run, hreport, pure_run]⟩
  | ok p =>
    rw [hp] at h
    dsimp only at h ⊢
    cases hc : p.compile with
    | ok compiled =>
      rw [hc] at h
      cases h
    | error f =>
      obtain ⟨text, hreport⟩ := reportHalt_run linkers time
        (desk.report (timeLine timings time "Parsed in")) source file (.fault f)
      refine ⟨timeLine timings time "Parsed in" ++ text, ?_⟩
      rw [bind_run, reportTime_run]
      dsimp only
      rw [bind_run, hreport, pure_run, report_report]

/-- An assembly is written where it can be, and the directories it is in are made. -/
theorem writeAssembly_run {output : String} (text : String) (htree : desk.disk.IsTree)
    (h : desk.disk.Writable output.toList) : ∃ disk,
      writeAssembly (Desk.host linkers time) output text desk = (none, { desk with disk := disk }) ∧
      ∀ q, disk.entry? q = if q = desk.disk.target output.toList then some (.file text.toUTF8)
        else if q ∈ desk.disk.ways output.toList then some .directory else desk.disk.entry? q := by
  obtain ⟨parent, made, hparent, hmade, hmakes⟩ := h.makes htree
  refine ⟨_, ?_, h.entry?_written hmade text.toUTF8⟩
  have hwrite := h.writes hmade text.toUTF8
  rw [writeAssembly, hparent, Option.getD_some]
  -- The parent of a bare name is the empty path, and then no directory is asked for.
  rcases hmakes with ⟨rfl, rfl⟩ | ⟨hne, hrun⟩
  · have hnone : (String.ofList ([] : List Char)).isEmpty = true := rfl
    rw [hnone, if_pos rfl, bind_run, pure_run]
    dsimp only
    rw [bind_run, writeFile_run, hwrite]
    rfl
  · have hsome : (String.ofList parent).isEmpty = false := by
      simpa using hne
    rw [hsome, if_neg Bool.false_ne_true, bind_run, createDirectories_run, String.length_ofList,
      String.toList_ofList, hrun]
    dsimp only
    rw [bind_run, writeFile_run, hwrite]
    rfl

/-- **Where an assembly cannot be written it is not**, so nothing less can be asked. -/
theorem writeAssembly_iff {output text : String} (htree : desk.disk.IsTree)
    (hworking : desk.disk.entry? desk.disk.working = some .directory) :
    (writeAssembly (Desk.host linkers time) output text desk).1 = none ↔
      desk.disk.Writable output.toList := by
  constructor
  · intro h
    rw [writeAssembly, bind_run] at h
    generalize hparent : String.ofList ((Path.parent? output.toList).getD []) = parent at h
    obtain ⟨result, grown, hgrown, hrun⟩ : ∃ result grown, desk.disk.Grown grown ∧
        (if parent.isEmpty then pure (.ok ()) else
          (Desk.host linkers time).createDirectories parent) desk =
          (result, { desk with disk := grown }) := by
      split
      · exact ⟨_, _, .refl, rfl⟩
      · exact ⟨_, _, .createDirectories (parent.length + 1) _ _, rfl⟩
    rw [hrun] at h
    cases result with
    | error e => cases h
    | ok =>
      cases hwrite : grown.write output.toList text.toUTF8 with
      | ok disk => exact .of_write hgrown hworking hwrite
      | error e =>
        dsimp only at h
        rw [bind_run, writeFile_run, hwrite] at h
        cases h
  · intro h
    obtain ⟨disk, hrun, -⟩ := writeAssembly_run linkers time text htree h
    rw [hrun]

/-- A source that is compiled is reported on, and its assembly is written. -/
theorem buildText_compiled (timings : Bool) {options : BuildOptions} {path source file : String}
    {compiled : Compiled} (h : compileSource source file = .ok compiled)
    (hlink : options.link = false) (htree : desk.disk.IsTree)
    (hwritable : desk.disk.Writable (options.output.getD (Path.assembly path)).toList) :
    ∃ disk, buildText (Desk.host linkers time) timings options path source file desk =
        (.success, { desk with
          disk := disk
          errors := desk.errors ++ (timeLine timings time "Parsed in" ++
            (timeLine timings time "Generated in" ++
              (String.join (compiled.diagnostics.map fun f => f.report source file) ++
                timeLine timings time "Total time:"))) }) ∧
      ∀ q, disk.entry? q = if q = desk.disk.target (options.output.getD (Path.assembly path)).toList
        then some (.file compiled.listing.text.toUTF8)
        else if q ∈ desk.disk.ways (options.output.getD (Path.assembly path)).toList
          then some .directory else desk.disk.entry? q := by
  obtain ⟨p, hp, hc⟩ := compileSource_eq_ok h
  let reported := ((desk.report (timeLine timings time "Parsed in")).report
    (timeLine timings time "Generated in")).report
      (String.join (compiled.diagnostics.map fun f => f.report source file))
  obtain ⟨disk, hwrite, hentries⟩ := writeAssembly_run linkers time compiled.listing.text
    (show reported.disk.IsTree from htree) hwritable
  refine ⟨disk, ?_, hentries⟩
  rw [buildText, bind_run, clock_run, hp]
  dsimp only
  rw [bind_run, reportTime_run, hc]
  dsimp only
  rw [bind_run, reportTime_run]
  dsimp only
  rw [reportAll, bind_run, printError_run]
  dsimp only
  rw [bind_run, hwrite, hlink]
  dsimp only
  rw [if_neg Bool.false_ne_true, bind_run, reportTime_run, pure_run]
  simp only [reported, Desk.report, String.append_assoc]

/-- **A build is whole or nothing.** Without the source or its assembly, the build fails and
leaves the disk alone. Otherwise, where the output can be written and nothing is to be linked, it
succeeds, the output is the assembly, the directories it is in are there, and all other places are
as they were; the errors get the reports of all diagnostics in order, and times if asked for. -/
theorem build_whole (linkers : Linkers) (time : String) (desk : Desk) (options : BuildOptions)
    (path : String) (timings : Bool) :
    let outcome := (Command.mk (.build options) path timings).execute (Desk.host linkers time) desk
    let output := (options.output.getD (Path.assembly path)).toList
    (∀ e, desk.disk.read path.toList = .error e →
      outcome.1.code = 1 ∧ outcome.2.disk = desk.disk) ∧
    ∀ source, desk.disk.read path.toList = .ok source →
      (∀ halt, compileSource source (Path.display path) = .error halt →
        outcome.1.code = 1 ∧ outcome.2.disk = desk.disk) ∧
      ∀ compiled, compileSource source (Path.display path) = .ok compiled →
        options.link = false → desk.disk.IsTree → desk.disk.Writable output →
        outcome.1.code = 0 ∧
        (∀ q, Disk.entry? outcome.2.disk q =
          if q = desk.disk.target output then some (.file compiled.listing.text.toUTF8)
          else if q ∈ desk.disk.ways output then some .directory else desk.disk.entry? q) ∧
        outcome.2.output = desk.output ∧
        outcome.2.errors = desk.errors ++ (timeLine timings time "Parsed in" ++
          (timeLine timings time "Generated in" ++
            (String.join (compiled.diagnostics.map fun f => f.report source (Path.display path)) ++
              timeLine timings time "Total time:"))) := by
  intro outcome output
  refine ⟨fun e he => ?_, fun source hsource => ?_⟩
  · obtain ⟨text, hrun⟩ := execute_unreadable linkers time
      (c := ⟨.build options, path, timings⟩) he
    have houtcome : outcome = _ := hrun
    rw [houtcome]
    exact ⟨rfl, rfl⟩
  · have houtcome : outcome = _ :=
      execute_readable linkers time (c := ⟨.build options, path, timings⟩) rfl hsource
    refine ⟨fun halt hhalt => ?_, fun compiled hcompiled hlink htree hwritable => ?_⟩
    · obtain ⟨text, hrun⟩ := buildText_refused linkers time desk timings options path hhalt
      rw [houtcome, hrun]
      exact ⟨rfl, rfl⟩
    · obtain ⟨disk, hrun, hentries⟩ :=
        buildText_compiled linkers time timings hcompiled hlink htree hwritable
      rw [houtcome, hrun]
      exact ⟨rfl, hentries, rfl, rfl⟩

/-- A source that is not there, one that is not a program, and one that uses a variable that is
not declared. The last is compiled, with a report, to a directory that is made for it. -/
theorem build_whole_undeclared :
    let source := "fun main() \x7b println(x) \x7d"
    let disk := ((⟨[], []⟩ : Disk).put ["a.kt".toList] (.file source.toUTF8)).put ["b.kt".toList]
      (.file "fun".toUTF8)
    let build (file : String) :=
      (Command.mk (.build ⟨some "out/a.s", false, "cc"⟩) file false).execute
        (Desk.host [] "0 ns") ⟨disk, "", ""⟩
    let f : Fault := ⟨.variableNotDeclared "x", ⟨21, "a.kt"⟩⟩
    ((build "c.kt").1.code = 1 ∧ (build "c.kt").2.disk = disk) ∧
    ((build "b.kt").1.code = 1 ∧ (build "b.kt").2.disk = disk) ∧
    ∃ compiled, compileSource source "a.kt" = .ok compiled ∧ (build "a.kt").1.code = 0 ∧
      Disk.entry? (build "a.kt").2.disk ["out".toList, "a.s".toList] =
        some (.file compiled.listing.text.toUTF8) ∧
      Disk.entry? (build "a.kt").2.disk ["out".toList] = some .directory ∧
      Disk.entry? (build "a.kt").2.disk ["a.kt".toList] = some (.file source.toUTF8) ∧
      (build "a.kt").2.errors = f.report source "a.kt" := by
  intro source disk build f
  have hk : (compileSource source "a.kt").toOption.any (fun c => c.diagnostics = [f]) = true := by
    decide +kernel
  obtain ⟨compiled, hcompiled, hk⟩ := exists_of_any hk
  have hdiagnostics : compiled.diagnostics = [f] := of_decide_eq_true hk
  have hempty : (⟨[], []⟩ : Disk).IsTree := by
    intro q hq
    have htop : q = [] := by
      by_contra htop
      exact hq (if_neg htop)
    rw [htop]
    rfl
  have htree : disk.IsTree := by
    refine .put (.put hempty (List.cons_ne_nil _ _) rfl ?_) (List.cons_ne_nil _ _) rfl ?_
    · rintro ⟨⟩
    · rintro ⟨⟩
  have hways : disk.ways "out/a.s".toList = [[], ["out".toList]] := by decide +kernel
  have htarget : disk.target "out/a.s".toList = ["out".toList, "a.s".toList] := by decide +kernel
  have hwritable : disk.Writable "out/a.s".toList := by
    refine ⟨by decide +kernel, by decide +kernel, by decide +kernel, rfl, ?_, ?_, ?_⟩
    · rw [hways, List.forall_mem_cons, List.forall_mem_singleton]
      exact ⟨.inr rfl, .inl rfl⟩
    · rw [htarget]
      rintro ⟨⟩
    · rw [htarget, hways]
      decide +kernel
  have hwhole (file : String) := build_whole [] "0 ns" ⟨disk, "", ""⟩ ⟨some "out/a.s", false, "cc"⟩
    file false
  obtain ⟨hcode, hentries, -, herrors⟩ := ((hwhole "a.kt").2 source (by decide +kernel)).2 compiled
    hcompiled rfl htree hwritable
  replace hentries (q : Place) : Disk.entry? (build "a.kt").2.disk q =
      if q = disk.target "out/a.s".toList then some (.file compiled.listing.text.toUTF8)
      else if q ∈ disk.ways "out/a.s".toList then some .directory else disk.entry? q := hentries q
  rw [htarget, hways] at hentries
  refine ⟨(hwhole "c.kt").1 .notFound (by decide +kernel), ?_, compiled, hcompiled, hcode,
    ?_, ?_, ?_, ?_⟩
  · have hfails : (compileSource "fun" "b.kt").isOk = false := by decide +kernel
    cases hrefused : compileSource "fun" "b.kt" with
    | ok _ =>
      rw [hrefused] at hfails
      cases hfails
    | error halt => exact ((hwhole "b.kt").2 "fun" (by decide +kernel)).1 halt hrefused
  · rw [hentries]
    exact if_pos rfl
  · rw [hentries, if_neg (by decide +kernel), if_pos (by decide +kernel)]
  · rw [hentries, if_neg (by decide +kernel), if_neg (by decide +kernel)]
    rfl
  · have hfile : Path.display "a.kt" = "a.kt" := by decide +kernel
    rw [herrors, hdiagnostics, hfile]
    simp [timeLine, String.join]

end Command

end ScriptLang
