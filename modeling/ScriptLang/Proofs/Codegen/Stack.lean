import ScriptLang.Proofs.Codegen.Labels

/-!
# The stack stays level

Only the sequence of a call moves the stack pointer within a function, and it moves it
back. So the stack is as the prologue left it wherever control can come from elsewhere,
and it is aligned at every call, those of fault handlers included.
-/

namespace ScriptLang

open Assembly Gen

/-! ## Balanced code -/

/-- The position is within the sequence of a call, behind its first instruction. -/
def InCall (c : List Instruction) (k : Nat) : Prop :=
  ∃ (before after : List Instruction) (symbol : String) (slots : List Slot),
    c = before ++ (callCode symbol slots ++ after) ∧ before.length < k ∧
      k < before.length + (callCode symbol slots).length

/-- Code of instructions that leave the stack alone, and of whole calls. -/
inductive Balanced : List Instruction → Prop
  | nil : Balanced []
  | level {i c} : i.Level → Balanced c → Balanced (i :: c)
  | call {c} (symbol : String) (slots : List Slot) : Balanced c →
    Balanced (callCode symbol slots ++ c)

namespace Balanced

variable {c d : List Instruction}

theorem append (hc : Balanced c) (hd : Balanced d) : Balanced (c ++ d) := by
  induction hc with
  | nil => exact hd
  | level hi _ ih => exact .level hi ih
  | call symbol slots _ ih =>
    rw [List.append_assoc]
    exact .call symbol slots ih

theorem of_level (h : ∀ i ∈ c, i.Level) : Balanced c := by
  induction c with
  | nil => exact .nil
  | cons i c ih =>
    obtain ⟨hi, hc⟩ := List.forall_mem_cons.mp h
    exact .level hi (ih hc)

theorem depth_eq_zero (h : Balanced c) : depth c = 0 := by
  induction h with
  | nil => rfl
  | level hi _ ih => rw [depth_cons, hi.shift, ih, Int.add_zero]
  | call symbol slots _ ih => rw [depth_append, depth_callCode, ih, Int.add_zero]

end Balanced

/-- What holds where control is at an instruction of balanced code. -/
structure LevelAt (c : List Instruction) (k : Nat) (i : Instruction) : Prop where
  tracked : i.Tracked
  leaves : i ≠ .leave ∧ i ≠ .return
  aligned : i.isCall = true → 16 ∣ depth (c.take k)
  level : (i.placed?.isSome ∨ i.target?.isSome ∨ ¬ InCall c k) → depth (c.take k) = 0

theorem InCall.cons {c : List Instruction} {k : Nat} (h : InCall c k) (i : Instruction) :
    InCall (i :: c) (k + 1) := by
  obtain ⟨before, after, symbol, slots, rfl, hlt, hle⟩ := h
  exact ⟨i :: before, after, symbol, slots, rfl, Nat.succ_lt_succ hlt, by
    rw [List.length_cons]
    omega⟩

theorem InCall.append {c : List Instruction} {k : Nat} (h : InCall c k) (d : List Instruction) :
    InCall (d ++ c) (d.length + k) := by
  obtain ⟨before, after, symbol, slots, rfl, hlt, hle⟩ := h
  refine ⟨d ++ before, after, symbol, slots, (List.append_assoc ..).symm, ?_, ?_⟩ <;>
    rw [List.length_append] <;> omega

/-- In the sequence of a call, the stack is as it was in front of it and aligned at the
call itself; nothing else there is of note to control flow. -/
theorem levelAt_callCode (symbol : String) (slots : List Slot) (c : List Instruction) {k : Nat}
    (hk : k < (callCode symbol slots).length) {i : Instruction}
    (hi : (callCode symbol slots)[k]? = some i) : LevelAt (callCode symbol slots ++ c) k i := by
  have htake : (callCode symbol slots ++ c).take k = (callCode symbol slots).take k :=
    List.take_append_of_le_length (Nat.le_of_lt hk)
  have hlevel : (¬ InCall (callCode symbol slots ++ c) k) →
      depth ((callCode symbol slots ++ c).take k) = 0 := by
    intro h
    cases k with
    | zero => rfl
    | succ k =>
      exact absurd ⟨[], c, symbol, slots, rfl, Nat.succ_pos k, by rwa [List.length_nil,
        Nat.zero_add]⟩ h
  have hprepares : Preparing i → LevelAt (callCode symbol slots ++ c) k i := by
    intro hp
    refine ⟨hp.tracked, hp.leaves, fun h => ?_, fun h => hlevel ?_⟩
    · rw [hp.isCall] at h
      cases h
    · rcases h with h | h | h
      · rw [hp.placed] at h
        cases h
      · rw [hp.target] at h
        cases h
      · exact h
  rw [callCode_eq] at hi
  rcases Nat.lt_trichotomy k (callLead slots).length with hlt | heq | hgt
  · rw [List.getElem?_append_left hlt] at hi
    exact hprepares (preparing_callLead slots i (List.mem_of_getElem? hi))
  · rw [heq, List.getElem?_append_right (Nat.le_refl _), Nat.sub_self] at hi
    cases hi
    have hcall : Instruction.Level (.call (.symbol symbol)) := by simp [Instruction.Level]
    refine ⟨hcall.tracked, ⟨nofun, nofun⟩, fun _ => ?_, fun h => hlevel ?_⟩
    · rw [htake, callCode_eq, heq, List.take_left, depth_callLead]
      exact Int.natCast_dvd_natCast.mpr (callRoom_aligned slots)
    · rcases h with h | h | h
      · cases h
      · cases h
      · exact h
  · rw [List.getElem?_append_right (Nat.le_of_lt hgt)] at hi
    obtain ⟨n, hn⟩ : ∃ n, k - (callLead slots).length = n + 1 :=
      ⟨k - (callLead slots).length - 1, by omega⟩
    rw [hn, List.getElem?_cons_succ] at hi
    exact hprepares (preparing_callTail slots i (List.mem_of_getElem? hi))

theorem Balanced.levelAt {code : List Instruction} (h : Balanced code) :
    ∀ {k : Nat} {i : Instruction}, code[k]? = some i → LevelAt code k i := by
  induction h with
  | nil => exact fun h => by cases h
  | @level j c hj hc ih =>
    intro k i hk
    cases k with
    | zero =>
      cases hk
      exact ⟨hj.tracked, ⟨by rintro rfl; simp [Instruction.Level] at hj,
        by rintro rfl; simp [Instruction.Level] at hj⟩, fun _ => ⟨0, rfl⟩, fun _ => rfl⟩
    | succ k =>
      obtain ⟨ht, hl, ha, hz⟩ := ih hk
      have hd : depth ((j :: c).take (k + 1)) = depth (c.take k) := by
        rw [List.take_succ_cons, depth_cons, hj.shift, Int.zero_add]
      exact ⟨ht, hl, fun hi => by rw [hd]; exact ha hi, fun hi => hd.trans
        (hz (hi.imp_right (Or.imp_right fun hi hin => hi (hin.cons j))))⟩
  | @call c symbol slots hc ih =>
    intro k i hk
    rcases Nat.lt_or_ge k (callCode symbol slots).length with hlt | hge
    · rw [List.getElem?_append_left hlt] at hk
      exact levelAt_callCode symbol slots c hlt hk
    · rw [List.getElem?_append_right hge] at hk
      obtain ⟨ht, hl, ha, hz⟩ := ih hk
      have hd : depth ((callCode symbol slots ++ c).take k) =
          depth (c.take (k - (callCode symbol slots).length)) := by
        rw [List.take_append, List.take_of_length_le hge, depth_append, depth_callCode,
          Int.zero_add]
      refine ⟨ht, hl, fun hi => by rw [hd]; exact ha hi, fun hi => hd.trans
        (hz (hi.imp_right (Or.imp_right fun hi hin => hi ?_)))⟩
      have hin := hin.append (callCode symbol slots)
      rwa [Nat.add_sub_cancel' hge] at hin

/-! ## Generated code -/

theorem level_storeCode (slot : Slot) : ∀ i ∈ slot.storeCode, i.Level := by
  unfold Slot.storeCode
  split <;> simp [Instruction.Level]

theorem level_truthCode (type : ValueType) : ∀ i ∈ type.truthCode, i.Level := by
  cases type <;> simp [ValueType.truthCode, Instruction.Level]

theorem level_jumpIfFalse (type : ValueType) (l : Label) : ∀ i ∈ type.jumpIfFalse l, i.Level :=
  List.forall_mem_append.mpr ⟨level_truthCode type, by simp [Instruction.Level]⟩

/-- All generated code is balanced. -/
theorem Makes.balances {cells : List Slot} {s t : Stage} {c : List Instruction}
    (h : Makes cells s c t) : Balanced c := by
  induction h with
  | plain _ h => exact .of_level fun i hi => (h i hi).level
  | append _ _ ih ih' => exact ih.append ih'
  | fill h =>
    cases h with
    | result => exact .of_level (level_storeCode _)
    | constant n _ => exact .of_level (by simp [Instruction.Level])
  | declare => exact .nil
  | rebind => exact .nil
  | scope _ ih => exact ih
  | @divide s operator h =>
    refine .of_level ?_
    cases operator <;> simp [Arithmetic.integerCode, Instruction.Level]
  | @call _ _ symbol _ slots _ _ =>
    have h := Balanced.nil.call symbol slots
    rwa [List.append_nil] at h
  | branch _ _ _ ih₁ ih₂ ih₃ =>
    exact ((((ih₁.append (.of_level (level_jumpIfFalse _ _))).append ih₂).append
      (.of_level (by simp [Instruction.Level]))).append ih₃).append
        (.of_level (by simp [Instruction.Level]))
  | whileLoop _ _ ih₁ ih₂ =>
    exact (((Balanced.append (.of_level (by simp [Instruction.Level])) ih₁).append
      (.of_level (level_jumpIfFalse _ _))).append ih₂).append
        (.of_level (by simp [Instruction.Level]))
  | doWhile _ _ ih₁ ih₂ =>
    exact (((Balanced.append (.of_level (by simp [Instruction.Level])) ih₁).append
      (.of_level (by simp [Instruction.Level]))).append ih₂).append
        (.of_level (List.forall_mem_append.mpr
          ⟨level_truthCode _, by simp [Instruction.Level]⟩))
  | forLoop _ _ _ _ _ _ _ ih₁ ih₂ ih₃ =>
    exact ((((ih₁.append (.of_level (level_storeCode _))).append ih₂).append
      (.of_level (by simp [lapHead, Instruction.Level]))).append ih₃).append
        (.of_level (by simp [lapTail, Instruction.Level]))
  | topLevel _ ih => exact ih.append (.of_level (by simp [Instruction.Level]))

/-! ## Functions -/

theorem level_handlers : ∀ i ∈ handlers, i.Level ∧ i.target? = none ∧ i ≠ .return := by
  decide

/-- What is known of a function: its body is balanced, jumps stay in it or lead to its end
or a handler, and its frame is aligned. -/
structure Steady (r : Routine) : Prop where
  balanced : Balanced r.body
  jumps : ∀ l ∈ jumps r.body, ∀ name, l ≠ .symbol name
  aligned : 16 ∣ r.frameSize
  nonnegative : 0 ≤ r.frameSize

theorem Gen.MadeFrom.steady {cells : List Slot} {r : Routine} {g : Generator}
    {returns : DeclaredType} {t : Stage} (h : MadeFrom cells r g returns t) : Steady r := by
  obtain ⟨haligned, hcovers, -⟩ := h.frame_covers
  have hused : 0 ≤ t.generator.frame.used := h.before.used
  refine ⟨h.made.balances, fun l hl name => ?_, haligned, Int.le_trans hused hcovers⟩
  have hlabels := h.made.labelled (List.cons_ne_nil _ _)
  rcases hlabels.exits l hl with hp | he
  · obtain ⟨mark, n, rfl, -⟩ := hlabels.numbered.between l hp
    exact nofun
  · rcases h.exit he with rfl | ⟨trap, rfl⟩
    · exact nofun
    · exact nofun

namespace Assembly.Routine

/-- The code of a function, with the handlers it may jump to behind it. -/
def withHandlers (r : Routine) : List Instruction := r.code ++ handlers

/-- Where the epilogue stands. -/
def finish (r : Routine) : Nat := r.prologue.length + r.body.length

/-- The stack pointer behind the prologue, if it is `stack` in front of it. -/
def settled (r : Routine) (stack : Int) : Int := stack - 8 - r.frameSize

end Assembly.Routine

section

variable {r : Routine} {i : Nat} {instruction : Instruction}

theorem three_le_prologue (r : Routine) : 3 ≤ r.prologue.length := by
  rw [Routine.prologue, List.length_append]
  exact Nat.le_add_right 3 _

theorem depth_take_succ {code : List Instruction} (h : code[i]? = some instruction) :
    depth (code.take (i + 1)) = depth (code.take i) + instruction.shift := by
  rw [List.take_add_one, h, depth_append, Option.toList_some, depth_cons, depth_nil, Int.add_zero]

/-- Where an instruction of a function, or of a handler behind it, stands. -/
theorem regions (h : r.withHandlers[i]? = some instruction) :
    (i < r.prologue.length ∧ r.prologue[i]? = some instruction) ∨
    (∃ k, i = r.prologue.length + k ∧ r.body[k]? = some instruction) ∨
    (i = r.finish ∧ instruction = .label (.epilogue r.symbol)) ∨
    (i = r.finish + 1 ∧ instruction = .leave) ∨ (i = r.finish + 2 ∧ instruction = .return) ∨
    (r.finish + 3 ≤ i ∧ instruction ∈ handlers) := by
  rw [Routine.withHandlers, Routine.code, List.append_assoc, List.append_assoc] at h
  rw [Routine.finish]
  rcases Nat.lt_or_ge i r.prologue.length with hi | hi
  · rw [List.getElem?_append_left hi] at h
    exact .inl ⟨hi, h⟩
  rw [List.getElem?_append_right hi] at h
  rcases Nat.lt_or_ge (i - r.prologue.length) r.body.length with hk | hk
  · rw [List.getElem?_append_left hk] at h
    exact .inr (.inl ⟨i - r.prologue.length, by omega, h⟩)
  rw [List.getElem?_append_right hk] at h
  obtain ⟨n, hn⟩ : ∃ n, i = r.prologue.length + r.body.length + n :=
    ⟨i - (r.prologue.length + r.body.length), by omega⟩
  rw [show i - r.prologue.length - r.body.length = n by omega] at h
  refine .inr (.inr ?_)
  match n, h with
  | 0, h => cases h; exact .inl ⟨hn, rfl⟩
  | 1, h => cases h; exact .inr (.inl ⟨hn, rfl⟩)
  | 2, h => cases h; exact .inr (.inr (.inl ⟨hn, rfl⟩))
  | n + 3, h => exact .inr (.inr (.inr ⟨by omega, List.mem_of_getElem? (i := n) h⟩))

theorem depth_take_body {k : Nat} (hk : k ≤ r.body.length) :
    depth (r.withHandlers.take (r.prologue.length + k)) =
      depth r.prologue + depth (r.body.take k) := by
  rw [Routine.withHandlers, Routine.code, List.append_assoc, List.append_assoc,
    List.take_length_add_append, List.take_append_of_le_length hk, depth_append]

namespace Steady

theorem depth_prologue (h : Steady r) : depth r.prologue = 8 + r.frameSize := by
  have hn := h.nonnegative
  unfold Routine.prologue
  split
  · simp [Instruction.shift]
  · simp [Instruction.shift]
    omega

theorem depth_take (h : Steady r) {k : Nat} (hk : k ≤ r.body.length) :
    depth (r.withHandlers.take (r.prologue.length + k)) =
      8 + r.frameSize + depth (r.body.take k) := by
  rw [depth_take_body hk, h.depth_prologue]

end Steady

/-- In the prologue an instruction moves the stack pointer by its shift. It keeps the
frame pointer, once that is set. -/
structure Prologue (r : Routine) (i : Nat) (instruction : Instruction) : Prop where
  moves : ∀ p q, instruction.Moves p q → q.stack = p.stack - instruction.shift
  sets : i = 2 → instruction = .move (.register .rsp) (.register .rbp)
  tracked : 3 ≤ i → instruction.Tracked
  target : instruction.target? = none
  leaves : instruction ≠ .leave ∧ instruction ≠ .return
  isCall : instruction.isCall = false
  label : ∀ l, instruction = .label l → l = .symbol r.symbol

theorem prologue_at (h : r.prologue[i]? = some instruction) : Prologue r i instruction := by
  have hlevel : (Instruction.label (.symbol r.symbol)).Level := by simp [Instruction.Level]
  match i, h with
  | 0, h =>
    cases h
    exact ⟨fun p q h => by rw [hlevel.tracked p q h], nofun, fun h => by omega, rfl,
      ⟨nofun, nofun⟩, rfl, fun l h => by cases h; rfl⟩
  | 1, h =>
    cases h
    exact ⟨fun p q h => by cases h; rfl, nofun, fun h => by omega, rfl, ⟨nofun, nofun⟩, rfl,
      nofun⟩
  | 2, h =>
    cases h
    refine ⟨fun p q h => ?_, fun _ => rfl, fun h => by omega, rfl, ⟨nofun, nofun⟩, rfl, nofun⟩
    cases h
    exact (Int.sub_zero _).symm
  | n + 3, h =>
    change (if 0 < r.frameSize then [Instruction.integer .subtract (.immediate r.frameSize) .rsp]
      else [])[n]? = _ at h
    split at h
    · cases List.mem_singleton.mp (List.mem_of_getElem? h)
      exact ⟨fun p q h => by cases h; rfl, fun h => by omega, fun _ p q h => h, rfl,
        ⟨nofun, nofun⟩, rfl, nofun⟩
    · cases h

/-- Where control is at a place of a function, or of a handler it jumped to, the pointers
are these. -/
structure Settled (r : Routine) (start : Pointers) (i : Nat) (p : Pointers) : Prop where
  stack : i ≤ r.finish + 1 → p.stack = start.stack - depth (r.withHandlers.take i)
  frame : 3 ≤ i → i ≤ r.finish + 1 → p.frame = start.stack - 8
  returned : i = r.finish + 2 → p.stack = start.stack
  trapped : r.finish + 3 ≤ i → p.stack = r.settled start.stack

namespace Steady

variable {start p q : Pointers} {j : Nat} {l : Label}

theorem settled_next (h : Steady r) (hp : Settled r start i p)
    (hi : r.withHandlers[i]? = some instruction) (hf : instruction.falls = true)
    (hm : instruction.Moves p q) : Settled r start (i + 1) q := by
  have htake := depth_take_succ hi
  have hbehind : r.prologue.length ≤ r.finish := Nat.le_add_right _ _
  have hthree : 3 ≤ r.prologue.length := three_le_prologue r
  -- in the function, an instruction that is tracked moves the pointers as its shift says
  have htracked : 3 ≤ i → i ≤ r.finish → instruction.Tracked → Settled r start (i + 1) q := by
    intro hlow hhigh ht
    cases ht p q hm
    refine ⟨fun _ => ?_, fun _ _ => hp.frame hlow (by omega), fun _ => by omega,
      fun _ => by omega⟩
    rw [htake]
    have hs := hp.stack (by omega)
    dsimp only
    omega
  rcases regions hi with
    ⟨hlt, hi⟩ | ⟨k, rfl, hk⟩ | ⟨rfl, rfl⟩ | ⟨rfl, rfl⟩ | ⟨rfl, rfl⟩ | ⟨hge, hmem⟩
  · have hpro := prologue_at hi
    have hs := hp.stack (by omega)
    refine ⟨fun _ => ?_, fun hlow _ => ?_, fun _ => by omega, fun _ => by omega⟩
    · rw [htake, hpro.moves p q hm]
      omega
    · rcases Nat.lt_or_ge i 3 with hlt | hge
      · obtain rfl : i = 2 := by omega
        cases hpro.sets rfl
        cases hm
        exact hs
      · rw [hpro.tracked hge p q hm]
        exact hp.frame hge (by omega)
  · have hlt := (List.getElem?_eq_some_iff.mp hk).1
    exact htracked (by omega) (by rw [Routine.finish]; omega) (h.balanced.levelAt hk).tracked
  · exact htracked (by omega) (Nat.le_refl _)
      (Instruction.Level.tracked (by simp [Instruction.Level]))
  · have hframe := hp.frame (by omega) (Nat.le_refl _)
    have hq : q.stack = p.frame + 8 := hm
    exact ⟨fun _ => by omega, fun _ _ => by omega, fun _ => by omega, fun _ => by omega⟩
  · cases hf
  · have hlevel := (level_handlers instruction hmem).1
    rw [hlevel.tracked p q hm, hlevel.shift, Int.sub_zero]
    exact ⟨fun _ => by omega, fun _ _ => by omega, fun _ => by omega, fun _ => hp.trapped hge⟩

/-- Jumps start in the body, where the stack is as the prologue left it. -/
theorem settled_of_target (h : Steady r) (hp : Settled r start i p)
    (hi : r.withHandlers[i]? = some instruction) (hl : l ∈ instruction.target?) :
    l ∈ Assembly.jumps r.body ∧ p = ⟨r.settled start.stack, start.stack - 8⟩ := by
  rcases regions hi with ⟨-, hi⟩ | ⟨k, rfl, hk⟩ | ⟨-, rfl⟩ | ⟨-, rfl⟩ | ⟨-, rfl⟩ | ⟨-, hmem⟩
  · rw [(prologue_at hi).target] at hl
    cases hl
  · have hlt := (List.getElem?_eq_some_iff.mp hk).1
    have hin : r.prologue.length + k ≤ r.finish + 1 := by
      rw [Routine.finish]
      omega
    have hstack := hp.stack hin
    have hframe := hp.frame (by have := three_le_prologue r; omega) hin
    rw [h.depth_take (Nat.le_of_lt hlt),
      (h.balanced.levelAt hk).level (.inr (.inl (by rw [hl]; rfl)))] at hstack
    refine ⟨List.mem_filterMap.mpr ⟨instruction, List.mem_of_getElem? hk, hl⟩, ?_⟩
    rw [← hframe, Routine.settled, show start.stack - 8 - r.frameSize = p.stack by omega]
  · cases hl
  · cases hl
  · cases hl
  · rw [(level_handlers instruction hmem).2.1] at hl
    cases hl

/-- At the labels that jumps lead to, the stack is as the prologue left it. -/
theorem settled_label (h : Steady r) (hj : r.withHandlers[j]? = some (.label l))
    (hl : ∀ name, l ≠ .symbol name) :
    Settled r start j ⟨r.settled start.stack, start.stack - 8⟩ := by
  have hbehind : r.prologue.length ≤ r.finish := Nat.le_add_right _ _
  have hin : ∀ k ≤ r.body.length, depth (r.body.take k) = 0 →
      Settled r start (r.prologue.length + k) ⟨r.settled start.stack, start.stack - 8⟩ := by
    intro k hk hzero
    have hfinish : r.prologue.length + k ≤ r.finish := Nat.add_le_add_left hk _
    refine ⟨fun _ => ?_, fun _ _ => rfl, fun _ => by omega, fun _ => by omega⟩
    rw [h.depth_take hk, hzero, Routine.settled]
    dsimp only
    omega
  rcases regions hj with ⟨-, hi⟩ | ⟨k, rfl, hk⟩ | ⟨rfl, -⟩ | ⟨-, hne⟩ | ⟨-, hne⟩ | ⟨hge, -⟩
  · exact absurd ((prologue_at hi).label l rfl) (hl _)
  · exact hin k (Nat.le_of_lt (List.getElem?_eq_some_iff.mp hk).1)
      ((h.balanced.levelAt hk).level (.inl rfl))
  · exact hin _ (Nat.le_refl _) (by rw [List.take_length, h.balanced.depth_eq_zero])
  · cases hne
  · cases hne
  · exact ⟨fun _ => by omega, fun _ _ => by omega, fun _ => by omega, fun _ => rfl⟩

theorem settled_jump (h : Steady r) (hp : Settled r start i p)
    (hi : r.withHandlers[i]? = some instruction) (hl : instruction.target? = some l)
    (hj : r.withHandlers[j]? = some (.label l)) : Settled r start j p := by
  obtain ⟨hmem, rfl⟩ := h.settled_of_target hp hi hl
  exact h.settled_label hj (h.jumps l hmem)

theorem settled (h : Steady r) (hv : Visits r.withHandlers start i p) : Settled r start i p := by
  induction hv with
  | entry => exact ⟨fun _ => (Int.sub_zero _).symm, nofun, nofun, nofun⟩
  | next _ hi hf hm ih => exact h.settled_next ih hi hf hm
  | jump _ hi hl hj ih => exact h.settled_jump ih hi hl hj

end Steady

theorem InCall.appendRight {c : List Instruction} {k : Nat} (h : InCall c k)
    (d : List Instruction) : InCall (c ++ d) k := by
  obtain ⟨before, after, symbol, slots, rfl, hk⟩ := h
  exact ⟨before, after ++ d, symbol, slots, by simp only [List.append_assoc], hk⟩

theorem InCall.withHandlers {k : Nat} (h : InCall r.body k) :
    InCall r.withHandlers (r.prologue.length + k) :=
  ((h.append r.prologue).appendRight r.epilogue).appendRight handlers

namespace Steady

variable {start q : Pointers}

/-- Between the body and `leave`, the stack is as the prologue left it. -/
theorem depth_take_finish (h : Steady r) : ∀ n ≤ 1,
    depth (r.withHandlers.take (r.finish + n)) = 8 + r.frameSize := by
  have hbody : depth (r.withHandlers.take r.finish) = 8 + r.frameSize := by
    rw [Routine.finish, h.depth_take (Nat.le_refl _), List.take_length, h.balanced.depth_eq_zero,
      Int.add_zero]
  have hat : r.withHandlers[r.finish]? = some (.label (.epilogue r.symbol)) := by
    rw [Routine.withHandlers, Routine.code, List.append_assoc,
      List.getElem?_append_right (by rw [List.length_append]; exact Nat.le_refl _),
      List.length_append, Routine.finish, Nat.sub_self]
    rfl
  intro n hn
  rcases Nat.le_one_iff_eq_zero_or_eq_one.mp hn with rfl | rfl
  · exact hbody
  · rw [depth_take_succ hat, hbody]
    exact Int.add_zero _

theorem level_at (h : Steady r) (hs : Settled r start i q)
    (hi : r.withHandlers[i]? = some instruction) (hp : r.prologue.length ≤ i)
    (hret : instruction ≠ .return)
    (hout : instruction.placed?.isSome ∨ instruction.target?.isSome ∨ ¬ InCall r.withHandlers i) :
    q.stack = r.settled start.stack := by
  have hsettled : r.settled start.stack = start.stack - 8 - r.frameSize := rfl
  have hfinish : ∀ n ≤ 1, i = r.finish + n → q.stack = r.settled start.stack := by
    rintro n hn rfl
    have hstack := hs.stack (Nat.add_le_add_left hn _)
    rw [h.depth_take_finish n hn] at hstack
    omega
  rcases regions hi with ⟨hlt, -⟩ | ⟨k, rfl, hk⟩ | ⟨hi, -⟩ | ⟨hi, -⟩ | ⟨-, hi⟩ | ⟨hge, -⟩
  · exact absurd hlt (Nat.not_lt.mpr hp)
  · have hlt := (List.getElem?_eq_some_iff.mp hk).1
    have hstack := hs.stack (by rw [Routine.finish]; omega)
    rw [h.depth_take (Nat.le_of_lt hlt), (h.balanced.levelAt hk).level
      (hout.imp_right (Or.imp_right fun hn hin => hn hin.withHandlers))] at hstack
    omega
  · exact hfinish 0 (Nat.zero_le _) hi
  · exact hfinish 1 (Nat.le_refl _) hi
  · exact absurd hi hret
  · exact hs.trapped hge

theorem aligned_at (h : Steady r) (hs : Settled r start i q)
    (hi : r.withHandlers[i]? = some instruction) (hstart : 16 ∣ start.stack + 8)
    (hc : instruction.isCall = true) : 16 ∣ q.stack := by
  have haligned := h.aligned
  rcases regions hi with ⟨-, hi⟩ | ⟨k, rfl, hk⟩ | ⟨-, rfl⟩ | ⟨-, rfl⟩ | ⟨-, rfl⟩ | ⟨hge, -⟩
  · rw [(prologue_at hi).isCall] at hc
    cases hc
  · have hlt := (List.getElem?_eq_some_iff.mp hk).1
    have hstack := hs.stack (by rw [Routine.finish]; omega)
    rw [h.depth_take (Nat.le_of_lt hlt)] at hstack
    have hdepth := (h.balanced.levelAt hk).aligned hc
    omega
  · cases hc
  · cases hc
  · cases hc
  · rw [hs.trapped hge, Routine.settled]
    omega

theorem returned_at (h : Steady r) (hs : Settled r start i q)
    (hi : r.withHandlers[i]? = some .return) : q.stack = start.stack := by
  rcases regions hi with ⟨-, hi⟩ | ⟨k, rfl, hk⟩ | ⟨-, hi⟩ | ⟨-, hi⟩ | ⟨hi, -⟩ | ⟨-, hmem⟩
  · exact absurd rfl (prologue_at hi).leaves.2
  · exact absurd rfl (h.balanced.levelAt hk).leaves.2
  · cases hi
  · cases hi
  · exact hs.returned hi
  · exact absurd rfl (level_handlers _ hmem).2.2

end Steady

end

/-- The stack in every function of a compiled program, wherever control can be: it is
aligned at every call, as the prologue left it up to the epilogue's `leave` unless a call is
being prepared, aligned where the handlers of traps are entered, and given back at the end. -/
theorem Program.stack_of_compile {p : Program} {c : Compiled} (h : p.compile = .ok c)
    {r : Routine} (hr : r ∈ c.listing.routines) {start q : Pointers} {i : Nat}
    {instruction : Instruction} (hv : Assembly.Visits r.withHandlers start i q)
    (hi : r.withHandlers[i]? = some instruction) :
    (16 ∣ start.stack + 8 → instruction.isCall = true → 16 ∣ q.stack) ∧
    (i = r.prologue.length → q.stack = r.settled start.stack) ∧
    (r.prologue.length ≤ i → instruction ≠ .return →
      (instruction.placed?.isSome ∨ instruction.target?.isSome ∨ ¬ InCall r.withHandlers i) →
      q.stack = r.settled start.stack) ∧
    (16 ∣ start.stack + 8 → (∃ t, instruction = .label (.trap t)) → 16 ∣ q.stack) ∧
    (instruction = .return → q.stack = start.stack) := by
  obtain ⟨cells, g, returns, t, hmade⟩ := made_of_compile h hr
  have hsteady := hmade.steady
  have hs := hsteady.settled hv
  refine ⟨hsteady.aligned_at hs hi, ?_, hsteady.level_at hs hi, ?_, ?_⟩
  · rintro rfl
    have hstack := hs.stack (by rw [Routine.finish]; omega)
    rw [← Nat.add_zero r.prologue.length, hsteady.depth_take (Nat.zero_le _), List.take_zero,
      depth_nil] at hstack
    rw [hstack, Routine.settled]
    omega
  · rintro hstart ⟨t, rfl⟩
    have hbehind : r.prologue.length ≤ i := by
      refine Nat.le_of_not_lt fun hlt => ?_
      rcases regions hi with ⟨-, hi⟩ | ⟨k, rfl, -⟩ | ⟨-, hi⟩ | ⟨-, hi⟩ | ⟨-, hi⟩ | ⟨hge, -⟩
      · cases (prologue_at hi).label _ rfl
      · omega
      · cases hi
      · cases hi
      · cases hi
      · rw [Routine.finish] at hge
        omega
    have haligned := hsteady.aligned
    rw [hsteady.level_at hs hi hbehind nofun (.inl rfl), Routine.settled]
    omega
  · rintro rfl
    exact hsteady.returned_at hs hi

/-- Control gets through code that does not jump away. -/
theorem visits_of_falls {code : List Instruction} (start : Pointers) : ∀ {k : Nat},
    (∀ i ∈ code.take k, i.falls = true) → k ≤ code.length → ∃ q, Visits code start k q
  | 0, _, _ => ⟨start, .entry⟩
  | k + 1, hf, hk => by
    have hat : code[k]? = some code[k] := List.getElem?_eq_getElem hk
    rw [List.take_add_one, hat] at hf
    obtain ⟨hf, hlast⟩ := List.forall_mem_append.mp hf
    obtain ⟨p, hp⟩ := visits_of_falls start hf (Nat.le_of_lt hk)
    obtain ⟨q, hq⟩ : ∃ q, code[k].Moves p q := by
      unfold Instruction.Moves
      split
      · exact ⟨_, rfl⟩
      · exact ⟨_, rfl⟩
      · exact ⟨_, rfl⟩
      · exact ⟨_, rfl⟩
      · exact ⟨⟨p.frame + 8, 0⟩, rfl⟩
      · exact ⟨p, fun _ => rfl, fun _ => rfl⟩
    exact ⟨q, .next hp hat (hlast _ List.mem_cons_self) hq⟩

/-- The seventh argument of a call travels on the stack, with padding. -/
theorem Program.stack_of_compile_seventh :
    let p : Program := ⟨[
      .function ⟨"f", List.replicate 7 ⟨"x", .int⟩, .unit, ⟨[], default⟩, default⟩,
      .function ⟨"main", [], .unit, ⟨[.expression
        (.call "f" (List.replicate 7 (.integer 0 default)) default)], default⟩, default⟩], default⟩
    ∃ c r, p.compile = .ok c ∧ r ∈ c.listing.routines ∧
      ∃ q, Assembly.Visits r.withHandlers ⟨-8, 0⟩ 27 q ∧
        r.withHandlers[27]? = some (.call (.symbol "kt_f")) ∧ 16 ∣ q.stack := by
  intro p
  have hrun : ∃ c, p.compile = .ok c ∧ ∃ r, c.listing.routines[1]? = some r ∧
      (∀ i ∈ r.withHandlers.take 27, i.falls = true) ∧
      r.withHandlers[27]? = some (.call (.symbol "kt_f")) := by
    have hk : p.compile.toOption.any (fun c => c.listing.routines[1]?.any fun r =>
        (r.withHandlers.take 27).all (·.falls) &&
          r.withHandlers[27]? = some (.call (.symbol "kt_f"))) = true := by
      decide +kernel
    obtain ⟨c, hc, hk⟩ := exists_of_any hk
    obtain ⟨r, hr, hk⟩ := (Option.any_eq_true ..).mp hk
    exact ⟨c, hc, r, hr, by simpa using hk⟩
  obtain ⟨c, hc, r, hr, hfalls, hcall⟩ := hrun
  obtain ⟨q, hq⟩ := visits_of_falls ⟨-8, 0⟩ hfalls
    (Nat.le_of_lt (List.getElem?_eq_some_iff.mp hcall).1)
  have hr := List.mem_of_getElem? hr
  exact ⟨c, r, hc, hr, q, hq, hcall,
    (Program.stack_of_compile hc hr hq hcall).1 (by decide) rfl⟩

end ScriptLang
