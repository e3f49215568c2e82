import ScriptLang.Proofs.Codegen.CallSequence
import ScriptLang.Proofs.Codegen.Making.Program

/-!
# Labels of generated code

The labels that code places are numbered from the count it was started with up to the one
it ends with, and none is placed twice. Jumps lead to labels of the code itself, or to
those that are known where it was started.
-/

namespace ScriptLang

open Assembly Gen

/-- Labels with numbers above `low` up to `high`, none of them twice. -/
structure Numbered (low high : Nat) (ls : List Label) : Prop where
  nodup : ls.Nodup
  between : ∀ l ∈ ls, ∃ mark n, l = .numbered mark n ∧ low < n ∧ n ≤ high

namespace Numbered

variable {a b c : Nat} {ls ms : List Label}

theorem nil (a b : Nat) : Numbered a b [] := ⟨List.nodup_nil, nofun⟩

theorem append (h : Numbered a b ls) (h' : Numbered b c ms) (hab : a ≤ b) (hbc : b ≤ c) :
    Numbered a c (ls ++ ms) where
  nodup := by
    refine List.nodup_append.mpr ⟨h.nodup, h'.nodup, ?_⟩
    rintro l hl _ hm rfl
    obtain ⟨_, n, rfl, -, hn⟩ := h.between l hl
    obtain ⟨_, _, heq, hn', -⟩ := h'.between _ hm
    cases heq
    omega
  between := by
    intro l hl
    rcases List.mem_append.mp hl with hl | hl
    · obtain ⟨mark, n, rfl, hlow, hhigh⟩ := h.between l hl
      exact ⟨mark, n, rfl, hlow, Nat.le_trans hhigh hbc⟩
    · obtain ⟨mark, n, rfl, hlow, hhigh⟩ := h'.between l hl
      exact ⟨mark, n, rfl, Nat.lt_of_le_of_lt hab hlow, hhigh⟩

theorem perm (h : Numbered a b ms) (hp : ls.Perm ms) : Numbered a b ls :=
  ⟨hp.nodup_iff.mpr h.nodup, fun l hl => h.between l (hp.subset hl)⟩

/-- The labels of a statement share the next number. -/
theorem marks (marks : List Mark) (hm : marks.Nodup) (a : Nat) :
    Numbered a (a + 1) (marks.map (.numbered · (a + 1))) where
  nodup := List.Pairwise.map _ (fun _ _ hne h => hne (by cases h; rfl)) hm
  between := by
    intro l hl
    obtain ⟨mark, -, rfl⟩ := List.mem_map.mp hl
    exact ⟨mark, a + 1, rfl, Nat.lt_succ_self a, Nat.le_refl _⟩

end Numbered

section

variable (slot : Slot) (type : ValueType) (l : Label)

@[simp] theorem placed_storeCode : placed slot.storeCode = [] := by
  unfold Slot.storeCode
  split <;> rfl

@[simp] theorem jumps_storeCode : jumps slot.storeCode = [] := by
  unfold Slot.storeCode
  split <;> rfl

@[simp] theorem placed_truthCode : placed type.truthCode = [] := by cases type <;> rfl

@[simp] theorem jumps_truthCode : jumps type.truthCode = [] := by cases type <;> rfl

@[simp] theorem placed_jumpIfFalse : placed (type.jumpIfFalse l) = [] := by
  simp [ValueType.jumpIfFalse]

@[simp] theorem jumps_jumpIfFalse : jumps (type.jumpIfFalse l) = [l] := by
  simp [ValueType.jumpIfFalse]

end

/-- The labels that code places and jumps to, between two stages. -/
structure Labelled (s t : Stage) (c : List Instruction) : Prop where
  numbered : Numbered s.generator.labels t.generator.labels (placed c)
  exits : ∀ l ∈ jumps c, l ∈ placed c ∨ s.generator.Exit l

namespace Stage

variable {s t : Stage} {l : Label}

/-- Where jumps may lead stays the same while code is made. -/
theorem Before.exit (h : s.Before t) (hl : t.generator.Exit l) : s.generator.Exit l :=
  hl.congr h.loops.symm h.current.symm h.topLevelExit.symm

/-- From the body of a loop, jumps lead to the labels of the loop or out of it. -/
theorem exit_looping {labels : LoopLabels} (hl : (s.looping labels).generator.Exit l) :
    l = labels.onContinue ∨ l = labels.onBreak ∨ s.generator.Exit l := by
  cases hl with
  | again he => cases he; exact .inl rfl
  | done he => cases he; exact .inr (.inl rfl)
  | topLevel he => exact .inr (.inr (.topLevel he))
  | epilogue => exact .inr (.inr .epilogue)
  | trap t => exact .inr (.inr (.trap t))

/-- From a statement of the top level, jumps lead to its end or out of it. -/
theorem exit_exiting {end? : Label} (hl : (s.exiting (some end?)).generator.Exit l) :
    l = end? ∨ s.generator.Exit l := by
  cases hl with
  | again he => exact .inr (.again he)
  | done he => exact .inr (.done he)
  | topLevel he => cases he; exact .inl rfl
  | epilogue => exact .inr .epilogue
  | trap t => exact .inr (.trap t)

end Stage

/-- Whatever a loop counts in, labels are those of the stage in front of it. -/
theorem CountsIn.same {s t : Stage} {slot : Slot} {leave : Stage → Stage}
    (h : CountsIn s slot t leave) :
    t.generator.labels = s.generator.labels ∧
      (∀ u : Stage, (leave u).generator.labels = u.generator.labels) ∧
      ∀ l, t.generator.Exit l → s.generator.Exit l := by
  cases h with
  | there => exact ⟨rfl, fun _ => rfl, fun _ => id⟩
  | own name => exact ⟨rfl, fun _ => rfl, fun _ hl => hl.congr rfl rfl rfl⟩

section

variable (symbol : String) (slots : List Slot)

@[simp] theorem placed_callCode : placed (callCode symbol slots) = [] := by
  rw [callCode_eq]
  refine placed_eq_nil (List.forall_mem_append.mpr ⟨fun i hi => ?_, List.forall_mem_cons.mpr
    ⟨rfl, fun i hi => ?_⟩⟩)
  · exact (preparing_callLead slots i hi).placed
  · exact (preparing_callTail slots i hi).placed

@[simp] theorem jumps_callCode : jumps (callCode symbol slots) = [] := by
  rw [callCode_eq]
  refine jumps_eq_nil (List.forall_mem_append.mpr ⟨fun i hi => ?_, List.forall_mem_cons.mpr
    ⟨rfl, fun i hi => ?_⟩⟩)
  · exact (preparing_callLead slots i hi).target
  · exact (preparing_callTail slots i hi).target

end

namespace Labelled

variable {s t u : Stage} {c d : List Instruction}

/-- Code that places no labels and jumps out of itself at most. -/
theorem of_unplaced (hp : placed c = []) (he : ∀ l ∈ jumps c, s.generator.Exit l) :
    Labelled s t c := ⟨by rw [hp]; exact .nil _ _, fun l hl => .inr (he l hl)⟩

theorem silent (hp : placed c = []) (hj : jumps c = []) : Labelled s t c :=
  of_unplaced hp (by rw [hj]; nofun)

theorem append (h : Labelled s t c) (h' : Labelled t u d) (hst : s.Before t) (htu : t.Before u) :
    Labelled s u (c ++ d) where
  numbered := by
    rw [placed_append]
    exact h.numbered.append h'.numbered hst.labels htu.labels
  exits := by
    intro l hl
    rw [placed_append]
    rcases List.mem_append.mp (jumps_append c d ▸ hl) with hl | hl
    · exact (h.exits l hl).imp_left (List.mem_append_left _)
    · exact (h'.exits l hl).imp (List.mem_append_right _) hst.exit

/-- A statement places labels of its own and those of its parts, which are numbered later. -/
theorem own (marks : List Mark) (hm : marks.Nodup) {ls : List Label}
    (hn : Numbered s.number t.generator.labels ls) (hst : s.numbered.Before t)
    (hp : (placed c).Perm (marks.map (.numbered · s.number) ++ ls))
    (he : ∀ l ∈ jumps c, l ∈ placed c ∨ s.generator.Exit l) : Labelled s t c :=
  ⟨((Numbered.marks marks hm s.generator.labels).append hn (Nat.le_succ _) hst.labels).perm hp, he⟩

/-- Out of a part, jumps lead to labels of the part or out of all code. -/
theorem exits_of_before (h : Labelled t u d) (hst : s.Before t) :
    ∀ l ∈ jumps d, l ∈ placed d ∨ s.generator.Exit l := fun l hl =>
  (h.exits l hl).imp_right hst.exit

theorem exits_of_looping {labels : LoopLabels} (h : Labelled (t.looping labels) u d)
    (hst : s.Before t) : ∀ l ∈ jumps d, l ∈ placed d ∨ l = labels.onContinue ∨
      l = labels.onBreak ∨ s.generator.Exit l := fun l hl =>
  (h.exits l hl).imp_right fun hl => (Stage.exit_looping hl).imp_right (Or.imp_right hst.exit)

end Labelled

/-- Code of every shape places new labels, and jumps to labels of its own or out of it. -/
theorem Makes.labelled {cells : List Slot} {s t : Stage} {c : List Instruction}
    (h : Makes cells s c t) (hs : s.generator.Rooted) : Labelled s t c := by
  induction h with
  | @plain s g c hp h =>
    refine .of_unplaced (placed_eq_nil fun i hi => (h i hi).placed) fun l hl => ?_
    obtain ⟨i, hi, hl⟩ := List.mem_filterMap.mp hl
    exact (Stage.Before.pools hp).exit ((h i hi).target l hl)
  | append h _ ih ih' =>
    have hs' := (h.before hs).rooted hs
    exact (ih hs).append (ih' hs') (h.before hs) (Makes.before ‹_› hs')
  | fill h =>
    cases h with
    | result => exact .silent (placed_storeCode _) (jumps_storeCode _)
    | constant n _ => exact .silent rfl rfl
  | declare => exact .silent rfl rfl
  | rebind => exact .silent rfl rfl
  | scope _ ih =>
    obtain ⟨hn, he⟩ := ih (List.cons_ne_nil _ _)
    exact ⟨hn, fun l hl => (he l hl).imp_right (·.congr rfl rfl rfl)⟩
  | @divide s operator h =>
    have hn := Numbered.marks [.divide, .divideEnd] (by decide) s.generator.labels
    cases operator <;> cases h
    all_goals
      refine ⟨hn, ?_⟩
      simp [Arithmetic.integerCode, Stage.number, Generator.Exit.trap]
  | call hf hs => exact .silent (placed_callCode _ _) (jumps_callCode _ _)
  | @branch s t u v c d e type h₁ h₂ h₃ ih₁ ih₂ ih₃ =>
    obtain ⟨b₁, hr₁, b₂, hr₂, b₃⟩ := branch_stages hs h₁ h₂ h₃
    have b := (Stage.Before.numbered s).trans b₁
    have l₁ := ih₁ hs
    have l₂ := ih₂ hr₁
    have l₃ := ih₃ hr₂
    have he₁ := l₁.exits_of_before (.numbered s)
    have he₂ := l₂.exits_of_before b
    have he₃ := l₃.exits_of_before (b.trans b₂)
    refine .own [.otherwise, .endIf] (by decide)
      (l₁.numbered.append (l₂.numbered.append l₃.numbered b₂.labels b₃.labels)
        b₁.labels (b₂.trans b₃).labels) (b₁.trans (b₂.trans b₃)) ?_ ?_
    · refine List.perm_iff_count.mpr fun l => ?_
      simp [List.count_cons]
      omega
    · simp
      grind
  | @whileLoop s t u c d type h₁ h₂ ih₁ ih₂ =>
    have b₁ := (Stage.Before.numbered s).trans (h₁.before hs)
    have b₂ := Stage.Before.looped (h₂.before (b₁.rooted hs))
    have l₁ := ih₁ hs
    have l₂ := ih₂ (b₁.rooted hs)
    have he₁ := l₁.exits_of_before (.numbered s)
    have he₂ := l₂.exits_of_looping b₁
    refine .own [.whileStart, .whileEnd] (by decide)
      (l₁.numbered.append l₂.numbered (h₁.before hs).labels b₂.labels)
      ((h₁.before hs).trans b₂) ?_ ?_
    · refine List.perm_iff_count.mpr fun l => ?_
      simp [List.count_cons]
      omega
    · simp
      grind
  | @doWhile s t u c d type h₁ h₂ ih₁ ih₂ =>
    have b₁ := Stage.Before.looped (h₁.before hs)
    have b₂ := h₂.before (b₁.rooted hs)
    have l₁ := ih₁ hs
    have l₂ := ih₂ (b₁.rooted hs)
    have he₁ := l₁.exits_of_looping (.numbered s)
    have he₂ := l₂.exits_of_before ((Stage.Before.numbered s).trans b₁)
    refine .own [.doStart, .doCondition, .doEnd] (by decide)
      (l₁.numbered.append l₂.numbered b₁.labels b₂.labels) (b₁.trans b₂) ?_ ?_
    · refine List.perm_iff_count.mpr fun l => ?_
      simp [List.count_cons]
      omega
    · simp
      grind
  | @forLoop s t u v w c d e copy leave slots h₁ hcounter h₂ hlimit hstep hcounts h₃ ih₁ ih₂ ih₃ =>
    obtain ⟨b₁, hr₁, b₂, -, hr₃, -, b₄⟩ := forLoop_stages hs h₁ h₂ hcounts h₃
    obtain ⟨hv, hleave, hexit⟩ := hcounts.same
    have l₁ := ih₁ hs
    have l₂ := ih₂ hr₁
    have l₃ := ih₃ hr₃
    have b := (Stage.Before.numbered s).trans b₁
    have he₁ := l₁.exits_of_before (.numbered s)
    have he₂ := l₂.exits_of_before b
    have he₃ := fun l hl => (l₃.exits_of_looping (.refl v) l hl).imp_right
      (Or.imp_right (Or.imp_right fun hl => (b.trans b₂).exit (hexit l hl)))
    have hn₃ : Numbered u.generator.labels (leave w.looped).generator.labels (placed e) := by
      rw [hleave, ← hv]
      exact l₃.numbered
    refine .own [.forStart, .forEnd, .forNext] (by decide)
      (l₁.numbered.append (l₂.numbered.append hn₃ b₂.labels b₄.labels) b₁.labels
        (b₂.trans b₄).labels) (b₁.trans (b₂.trans b₄)) ?_ ?_
    · refine List.perm_iff_count.mpr fun l => ?_
      simp [lapHead, lapTail, List.count_cons]
      omega
    · simp [lapHead, lapTail]
      grind
  | @topLevel s t c h ih =>
    have b := h.before hs
    have l := ih hs
    have he := fun l' hl => (l.exits l' hl).imp_right fun hl =>
      (Stage.exit_exiting hl).imp_right (Stage.Before.numbered s).exit
    refine .own [.topEnd] (by decide) l.numbered (.exited b) ?_ ?_
    · exact List.perm_iff_count.mpr fun l => by simp [List.count_cons]
    · simp
      grind

end ScriptLang
