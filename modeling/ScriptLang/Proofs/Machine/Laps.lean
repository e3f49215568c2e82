import ScriptLang.Proofs.Codegen.Emission
import ScriptLang.Proofs.Codegen.ForPieces
import ScriptLang.Proofs.Evaluation.LoopRange
import ScriptLang.Proofs.Machine.Frame
import ScriptLang.Proofs.Machine.Outline

/-!
# The laps of a loop on the machine

The code of a `for` keeps the counter, the end and the step in slots of its own. Around a
body that leaves these alone, a lap starts where the number at hand is admitted, and the next
one with the number behind it, unless this one does not fit 64 bits.
-/

namespace ScriptLang

open Assembly Assembly.Machine Gen

/-! ## Slots apart -/

/-- The words in two slots share no byte. -/
def Slot.WordsApart (L : Layout) (base : BitVec 64) (s t : Slot) : Prop :=
  ∀ x, Assembly.Covers (s.address L base) x → ¬ Assembly.Covers (t.address L base) x

theorem Slot.WordsApart.symm {L : Layout} {base : BitVec 64} {s t : Slot}
    (h : s.WordsApart L base t) : t.WordsApart L base s := fun x ht hs => h x hs ht

/-- The variable that the body sees and the slots of the loop are apart from each other. -/
structure Gen.ForPieces.Apart (p : ForPieces) (L : Layout) (base : BitVec 64) : Prop where
  copy_counter : p.copy.WordsApart L base p.slots.counter
  copy_limit : p.copy.WordsApart L base p.slots.limit
  copy_step : p.copy.WordsApart L base p.slots.step
  counter_limit : p.slots.counter.WordsApart L base p.slots.limit
  counter_step : p.slots.counter.WordsApart L base p.slots.step
  limit_step : p.slots.limit.WordsApart L base p.slots.step

section

variable {L : Layout} {base : BitVec 64} {cells : List Slot} {t : Stage} {s : Slot}
  {as : List Allotment} {f : Frame}

/-- The word in a slot for integers of the frame. -/
theorem InFrame.of_slot {offset : Int} (hl : s.location = .frame offset) {x : BitVec 64}
    (h : Covers (s.address L base) x) : InFrame base (-(offset + 8)) (-offset) x := by
  rw [Slot.address, hl] at h
  have hoffset : offset = -(-(offset + 8) + 8) := by omega
  dsimp only at h
  rw [hoffset] at h
  exact (InFrame.of_covers h).mono (Int.le_refl _) (by omega)

/-- Different slots that a frame handed out share no byte, if it is no larger than memory. -/
theorem Frame.Hands.wordsApart (h : Frame.Hands .new as f) (hfits : f.used ≤ 2 ^ 64)
    {a b : Allotment} (ha : a ∈ as) (hb : b ∈ as) (hne : a ≠ b) :
    a.slot.WordsApart L base b.slot := by
  have hpairs := List.pairwise_map.mp h.stacked.pairwise
  have : Std.Symm fun a b : Allotment => a.slot.Apart b.slot :=
    ⟨fun _ _ h n hb ha => h n ha hb⟩
  have hapart := hpairs.forall ha hb hne
  obtain ⟨o, hl, -, hlow, hhigh⟩ := h.stacked.within (List.mem_map_of_mem ha)
  obtain ⟨o', hl', -, hlow', hhigh'⟩ := h.stacked.within (List.mem_map_of_mem hb)
  have hsize := a.slot.type.size_pos
  have hsize8 := a.slot.type.eight_dvd_size
  have hsize' := b.slot.type.size_pos
  have hsize8' := b.slot.type.eight_dvd_size
  intro x hx hx'
  have hin := InFrame.of_slot hl hx
  have hin' := InFrame.of_slot hl' hx'
  -- The lower slot ends where the other one starts, or below.
  rcases Int.lt_or_le o o' with hlt | hle
  · have hbelow : o + 8 ≤ o' := by
      refine Int.le_of_not_gt fun hgt => hapart o' ⟨o, hl, by omega, by omega⟩ ⟨o', hl', by omega, ?_⟩
      omega
    exact hin'.disjoint (by omega) (by omega) hin
  · have hbelow : o' + 8 ≤ o := by
      refine Int.le_of_not_gt fun hgt => hapart o ⟨o, hl, by omega, by omega⟩ ⟨o', hl', by omega, ?_⟩
      omega
    exact hin.disjoint (by omega) (by omega) hin'

/-- The slots of a loop are apart if the cells of globals are apart from the frame. -/
theorem Gen.ForPieces.apart {p : ForPieces} (ht : t.Tidy cells)
    (hslots : p.slots.Handed t.allotted) (hcopy : Counted cells t.allotted p.copy)
    (hfits : t.generator.frame.used ≤ 2 ^ 64)
    (hcells : ∀ cell ∈ cells, ∀ x, Covers (cell.address L base) x →
      ¬ InFrame base 0 t.generator.frame.used x) : p.Apart L base := by
  have hne : ∀ a ∈ t.allotted, ∀ b ∈ t.allotted, a ≠ b → a.slot.WordsApart L base b.slot :=
    fun _ ha _ hb => ht.handed.wordsApart hfits ha hb
  have hvariable : ∀ a ∈ t.allotted, (∀ name, a.purpose ≠ .variable name) →
      p.copy.WordsApart L base a.slot := by
    intro a ha hpurpose
    rcases hcopy.place with hcell | ⟨name, hname⟩
    · obtain ⟨o, hl, -, hlow, hhigh⟩ := ht.handed.stacked.within (List.mem_map_of_mem ha)
      have hsize := a.slot.type.size_pos
      have hsize8 := a.slot.type.eight_dvd_size
      intro x hx hx'
      exact hcells p.copy hcell x hx ((InFrame.of_slot hl hx').mono (by omega) (by omega))
    · refine hne _ hname a ha ?_
      rintro rfl
      exact hpurpose name rfl
  have hcounter := hvariable _ hslots.counter (by simp)
  have hlimit := hvariable _ hslots.limit (by simp)
  have hstep := hvariable _ hslots.step (by simp)
  have hcounter_limit := hne _ hslots.counter _ hslots.limit (by simp)
  have hcounter_step := hne _ hslots.counter _ hslots.step (by simp)
  have hlimit_step := hne _ hslots.limit _ hslots.step (by simp [hslots.ne])
  exact ⟨hcounter, hlimit, hstep, hcounter_limit, hcounter_step, hlimit_step⟩

end

/-! ## Single instructions -/

namespace Assembly.Machine

variable {L : Layout} {m : Machine} {slot : Slot} {r : Register}

@[simp] theorem effect_compare : m.effect L (.compare (.memory slot.low) r) =
    some (m.setFlags (IntegerOp.subtract.apply (m.registers r)
      (m.load (slot.address L (m.registers .rbp)))).2) := by
  change (Option.map m.load (m.address L slot.low)).map _ = _
  rw [address_low]
  rfl

@[simp] theorem effect_integer (o : IntegerOp) : m.effect L (.integer o (.memory slot.low) r) =
    some ((m.set r (o.apply (m.registers r) (m.load (slot.address L (m.registers .rbp)))).1).setFlags
      (o.apply (m.registers r) (m.load (slot.address L (m.registers .rbp)))).2) := by
  change (Option.map m.load (m.address L slot.low)).map _ = _
  rw [address_low]
  rfl

@[simp] theorem effect_one : m.effect L (.move (.immediate 1) (.memory slot.low)) =
    some (m.store (slot.address L (m.registers .rbp)) 1) := by
  change Option.map _ (m.address L slot.low) = _
  rw [address_low]
  rfl

end Assembly.Machine

/-- The flags of a range are those that the code is generated for. -/
structure LoopRange.Fits (r : LoopRange) (slots : LoopSlots) : Prop where
  excludesStop : r.excludesStop = slots.excludesStop
  descending : r.descending = slots.descending

section

variable {r : LoopRange} {slots : LoopSlots} {n : Int64}

/-- The comparison of the number with the end whose condition ends the loop. -/
def Gen.LoopSlots.exitComparison (slots : LoopSlots) : Comparison :=
  match slots.descending, slots.excludesStop with
  | false, true => .greaterEquals
  | false, false => .greater
  | true, true => .lessEquals
  | true, false => .less

theorem exitCondition_eq (slots : LoopSlots) :
    slots.exitCondition = slots.exitComparison.condition := by
  unfold LoopSlots.exitCondition LoopSlots.exitComparison
  cases slots.descending <;> cases slots.excludesStop <;> rfl

theorem onWords_exitComparison (h : r.Fits slots) (n : Int64) :
    slots.exitComparison.onWords n.toBitVec r.stop.toBitVec = decide (¬ r.Admits n.toInt) := by
  have hn : n.toInt = n.toBitVec.toInt := rfl
  have hstop : r.stop.toInt = r.stop.toBitVec.toInt := rfl
  rw [Bool.eq_iff_iff, decide_eq_true_iff, LoopRange.Admits, h.excludesStop, h.descending, hn,
    hstop, LoopSlots.exitComparison]
  cases slots.descending <;> cases slots.excludesStop <;>
    simp only [Comparison.onWords, BitVec.slt_iff_toInt_lt, BitVec.sle_iff_toInt_le] <;> omega

/-- The loop ends on the condition that the number is not admitted. -/
theorem holds?_exitCondition (h : r.Fits slots) (n : Int64) :
    (IntegerOp.subtract.apply n.toBitVec r.stop.toBitVec).2.holds? slots.exitCondition =
      some (decide (¬ r.Admits n.toInt)) := by
  rw [exitCondition_eq, Comparison.holds?_condition, onWords_exitComparison h]

/-- The operation that steps a counter. -/
def Gen.LoopSlots.stepping (slots : LoopSlots) : IntegerOp :=
  if slots.descending then .subtract else .add

/-- A step overflows if the number behind it does not fit, and gives it otherwise. -/
theorem apply_stepping (h : r.Fits slots) (n : Int64) :
    (slots.stepping.apply n.toBitVec r.step.toBitVec).1 = (r.next n).toBitVec ∧
      (slots.stepping.apply n.toBitVec r.step.toBitVec).2.holds? .o =
        some (decide (¬ Fits64 (r.stepped n.toInt))) := by
  have hn : n.toInt = n.toBitVec.toInt := rfl
  have hstep : r.step.toInt = r.step.toBitVec.toInt := rfl
  unfold LoopSlots.stepping LoopRange.next LoopRange.stepped Fits64
  rw [h.descending, hn, hstep]
  cases slots.descending with
  | true =>
    refine ⟨rfl, congrArg some ?_⟩
    rw [BitVec.ssubOverflow, Bool.eq_iff_iff]
    simp
    omega
  | false =>
    refine ⟨rfl, congrArg some ?_⟩
    rw [BitVec.saddOverflow, Bool.eq_iff_iff]
    simp
    omega

end

/-! ## The outline of a loop -/

/-- A label in front is placed elsewhere. -/
theorem Assembly.Outline.target_append {first second : Outline} {l : Label}
    (h : some (.label l) ∉ first) :
    Outline.target (first ++ second) l = (Outline.target second l).shift first.length := by
  have hf : first.findIdx? (· = some (.label l)) = none := by
    rw [List.findIdx?_eq_none_iff]
    intro i hi
    simpa using fun he : i = some (.label l) => h (he ▸ hi)
  rw [Outline.target, Outline.target, List.findIdx?_append, hf, Option.none_or]
  cases second.findIdx? (· = some (.label l)) with
  | some p => exact congrArg Assembly.Place.inside (Nat.add_comm ..)
  | none => rfl

namespace Gen.ForPieces

/-- The laps, without the body. -/
def lapsOutline (p : ForPieces) : Outline :=
  (lapHead p.number p.slots p.copy).map some ++ none :: (lapTail p.number p.slots).map some

/-- The code from where the step is the result, without the body. -/
def outline (p : ForPieces) : Outline :=
  (keepStep p.step p.slots.step).map some ++ p.lapsOutline

/-- Where a lap starts. -/
def first (p : ForPieces) : Nat := (keepStep p.step p.slots.step).length

/-- Where the body is entered. -/
def entry (p : ForPieces) : Nat := p.first + 5

/-- Where the loop is left. -/
def last (p : ForPieces) : Nat := p.first + 13

variable (p : ForPieces)

/-- The body is what the outline leaves out. -/
theorem code_eq : p.code = p.bounds ++ p.outline.fill p.body := by
  have htail : Outline.fill (none :: (lapTail p.number p.slots).map some) p.body =
      p.body ++ lapTail p.number p.slots := by
    have h := Outline.fill_map_some (lapTail p.number p.slots) [] p.body
    rw [List.append_nil] at h
    exact congrArg (p.body ++ ·) (h.trans (List.append_nil _))
  rw [outline, Outline.fill_map_some, lapsOutline, Outline.fill_map_some, htail, code,
    List.append_assoc (lapHead ..), List.append_assoc p.bounds]

theorem getElem?_outline (i : Nat) : p.outline[p.first + i]? = p.lapsOutline[i]? := by
  have hlength : p.first = ((keepStep p.step p.slots.step).map some).length :=
    (List.length_map _).symm
  rw [outline, hlength, List.getElem?_append_right (Nat.le_add_right ..), Nat.add_sub_cancel_left]

theorem length_outline : p.outline.length = p.last := by
  rw [outline, List.length_append, List.length_map]
  rfl

theorem gap_outline : p.outline[p.entry]? = some none := p.getElem?_outline 5

theorem label_notMem_keepStep (l : Label) : .label l ∉ keepStep p.step p.slots.step := by
  unfold keepStep
  split <;> simp [label_notMem_storeCode]

theorem target_outline (l : Label) :
    p.outline.target l = (p.lapsOutline.target l).shift p.first := by
  rw [outline, Outline.target_append, List.length_map]
  · rfl
  · simpa using p.label_notMem_keepStep l

theorem target_start : p.outline.target (.numbered .forStart p.number) = .inside p.first := by
  rw [target_outline]
  simp [lapsOutline, lapHead, Outline.target, List.findIdx?_cons, Assembly.Place.shift]

theorem target_next : p.outline.target (.numbered .forNext p.number) = .inside (p.entry + 1) := by
  rw [target_outline]
  simp [lapsOutline, lapHead, lapTail, Outline.target, List.findIdx?_cons, Assembly.Place.shift, entry]

theorem target_end : p.outline.target (.numbered .forEnd p.number) = .inside (p.first + 12) := by
  rw [target_outline]
  simp [lapsOutline, lapHead, lapTail, Outline.target, List.findIdx?_cons, Assembly.Place.shift]

theorem target_other {l : Label} (h : ∀ mark, l ≠ .numbered mark p.number) :
    p.outline.target l = .outside l := by
  rw [target_outline]
  simp [lapsOutline, lapHead, lapTail, Outline.target, List.findIdx?_cons, Assembly.Place.shift,
    fun mark => (h mark).symm]

/-! ## A lap -/

/-- The number at hand, the end and the step are in their slots. -/
structure Holds (L : Layout) (base : BitVec 64) (r : LoopRange) (n : Int64) (m : Machine) :
    Prop where
  frame : m.registers .rbp = base
  counter : m.load (p.slots.counter.address L base) = n.toBitVec
  limit : m.load (p.slots.limit.address L base) = r.stop.toBitVec
  step : m.load (p.slots.step.address L base) = r.step.toBitVec

variable {p} {L : Layout} {base : BitVec 64} {r : LoopRange} {n : Int64} {m m' : Machine}

theorem Holds.keeps (h : p.Holds L base r n m) (hk : m.Keeps m') : p.Holds L base r n m' where
  frame := hk.base.trans h.frame
  counter := (hk.load _).trans h.counter
  limit := (hk.load _).trans h.limit
  step := (hk.load _).trans h.step

/-- A store in the variable that the body sees. -/
theorem Holds.store_copy (h : p.Holds L base r n m) (ha : p.Apart L base) (w : BitVec 64) :
    p.Holds L base r n (m.store (p.copy.address L base) w) where
  frame := h.frame
  counter := (m.load_store_of_apart w ha.copy_counter.symm).trans h.counter
  limit := (m.load_store_of_apart w ha.copy_limit.symm).trans h.limit
  step := (m.load_store_of_apart w ha.copy_step.symm).trans h.step

/-- A store of another number. -/
theorem Holds.store_counter (h : p.Holds L base r n m) (ha : p.Apart L base) (k : Int64) :
    p.Holds L base r k (m.store (p.slots.counter.address L base) k.toBitVec) where
  frame := h.frame
  counter := m.load_store _ _
  limit := (m.load_store_of_apart _ ha.counter_limit.symm).trans h.limit
  step := (m.load_store_of_apart _ ha.counter_step.symm).trans h.step

/-- In front of a lap the number is compared with the end. -/
theorem straight_check (hr : r.Fits p.slots) (h : p.Holds L base r n m) :
    ∃ m', Outline.Straight L p.outline ⟨.inside p.first, m⟩
        ⟨.inside (if r.Admits n.toInt then p.first + 4 else p.last), m'⟩ ∧
      m'.registers .rax = n.toBitVec ∧ m.Keeps m' := by
  let m₁ := m.set .rax n.toBitVec
  have h₁ : m.effect L (.move (.memory p.slots.counter.low) (.register .rax)) = some m₁ := by
    rw [effect_load, h.frame, h.counter]
  let m₂ := m₁.setFlags (IntegerOp.subtract.apply n.toBitVec r.stop.toBitVec).2
  have h₂ : m₁.effect L (.compare (.memory p.slots.limit.low) .rax) = some m₂ := by
    have hlimit : m₁.load (p.slots.limit.address L (m₁.registers .rbp)) = r.stop.toBitVec := by
      rw [← h.limit, ← h.frame]
      rfl
    rw [effect_compare, hlimit]
    rfl
  refine ⟨m₂, .label (p.getElem?_outline 0) (.effect (p.getElem?_outline 1) h₁
    (.effect (p.getElem?_outline 2) h₂ (.jumpIf (p.getElem?_outline 3)
      (holds?_exitCondition hr n) ?_))), rfl, rfl, rfl⟩
  by_cases hn : r.Admits n.toInt
  · rw [if_pos hn, if_neg (by simpa using hn)]
    exact .refl _
  · rw [if_neg hn, if_pos (by simpa using hn), p.target_end]
    exact .label (p.getElem?_outline 12) (.refl _)

/-- At the end of a lap the number is stepped. -/
theorem straight_step (hr : r.Fits p.slots) (h : p.Holds L base r n m) :
    ∃ m', Outline.Straight L p.outline ⟨.inside (p.entry + 1), m⟩
        ⟨.inside (if Fits64 (r.stepped n.toInt) then p.first + 10 else p.last), m'⟩ ∧
      m'.registers .rax = (r.next n).toBitVec ∧ m.Keeps m' := by
  obtain ⟨hnext, hoverflow⟩ := apply_stepping hr n
  let m₁ := m.set .rax n.toBitVec
  have h₁ : m.effect L (.move (.memory p.slots.counter.low) (.register .rax)) = some m₁ := by
    rw [effect_load, h.frame, h.counter]
  let m₂ := (m₁.set .rax (r.next n).toBitVec).setFlags
    (p.slots.stepping.apply n.toBitVec r.step.toBitVec).2
  have h₂ : m₁.effect L (.integer p.slots.stepping (.memory p.slots.step.low) .rax) = some m₂ := by
    have hstep : m₁.load (p.slots.step.address L (m₁.registers .rbp)) = r.step.toBitVec := by
      rw [← h.step, ← h.frame]
      rfl
    have hrax : m₁.registers .rax = n.toBitVec := rfl
    rw [effect_integer, hstep, hrax, hnext]
  refine ⟨m₂, .label (p.getElem?_outline 6) (.effect (p.getElem?_outline 7) h₁
    (.effect (p.getElem?_outline 8) h₂ (.jumpIf (p.getElem?_outline 9) hoverflow ?_))),
    rfl, rfl, rfl⟩
  by_cases hfits : Fits64 (r.stepped n.toInt)
  · rw [if_pos hfits, if_neg (by simpa using hfits)]
    exact .refl _
  · rw [if_neg hfits, if_pos (by simpa using hfits), p.target_end]
    exact .label (p.getElem?_outline 12) (.refl _)

/-- A loop in front of its number `n` with so many laps to go, or behind the last one. -/
inductive Poised (p : ForPieces) (L : Layout) (base : BitVec 64) (r : LoopRange) :
    Nat → Int64 → Configuration → Prop
  | lap {n : Int64} {m : Machine} : p.Holds L base r n m →
    Poised p L base r (r.startingAt n).count n ⟨.inside p.first, m⟩
  | ended {n : Int64} {m : Machine} : Poised p L base r 0 n ⟨.inside p.last, m⟩

/-- The slots of the loop and the frame pointer are left alone. -/
structure Spares (p : ForPieces) (L : Layout) (m m' : Machine) : Prop where
  frame : m'.registers .rbp = m.registers .rbp
  counter : m'.load (p.slots.counter.address L (m.registers .rbp)) =
    m.load (p.slots.counter.address L (m.registers .rbp))
  limit : m'.load (p.slots.limit.address L (m.registers .rbp)) =
    m.load (p.slots.limit.address L (m.registers .rbp))
  step : m'.load (p.slots.step.address L (m.registers .rbp)) =
    m.load (p.slots.step.address L (m.registers .rbp))

theorem Holds.spares (h : p.Holds L base r n m) (hs : p.Spares L m m') :
    p.Holds L base r n m' := by
  obtain ⟨hframe, hcounter, hlimit, hstep⟩ := hs
  rw [h.frame] at hframe hcounter hlimit hstep
  exact ⟨hframe, hcounter.trans h.counter, hlimit.trans h.limit, hstep.trans h.step⟩

variable {a : Configuration} {laps : Nat}

theorem Poised.ends (h : p.Poised L base r 0 n a) (hr : r.Fits p.slots)
    (hstep : 0 < r.step.toInt) :
    ∃ m', Outline.Straight L p.outline a ⟨.inside p.last, m'⟩ := by
  generalize hlaps : 0 = laps at h
  cases h with
  | lap hm =>
    obtain ⟨m', hrun, -⟩ := straight_check hr hm
    rw [if_neg] at hrun
    · exact ⟨m', hrun⟩
    · intro hn
      have hcount := LoopRange.count_startingAt hstep n
      rw [if_pos hn, ← hlaps] at hcount
      split at hcount <;> omega
  | ended => exact ⟨_, .refl _⟩

/-- A lap: the body is entered with the number in its variable, and behind a body that leaves
the slots of the loop alone the next lap is ahead, or none. -/
theorem Poised.enters (h : p.Poised L base r (laps + 1) n a) (ha : p.Apart L base)
    (hr : r.Fits p.slots) (hstep : 0 < r.step.toInt) :
    ∃ w, Outline.Straight L p.outline a ⟨.inside p.entry, w⟩ ∧
      w.load (p.copy.address L (w.registers .rbp)) = n.toBitVec ∧
      ∀ w', p.Spares L w w' → ∃ b,
        Outline.Straight L p.outline ⟨.inside (p.entry + 1), w'⟩ b ∧
        p.Poised L base r laps (r.next n) b := by
  generalize hlaps : laps + 1 = count at h
  cases h with
  | ended => cases hlaps
  | lap hm =>
    rw [LoopRange.count_startingAt hstep n] at hlaps
    have hn : r.Admits n.toInt := by
      by_contra hn
      rw [if_neg hn] at hlaps
      cases hlaps
    rw [if_pos hn] at hlaps
    obtain ⟨m₁, hcheck, hrax, hk⟩ := straight_check hr hm
    rw [if_pos hn] at hcheck
    have hm₁ := hm.keeps hk
    have hcopy : m₁.effect L (.move (.register .rax) (.memory p.copy.low)) =
        some (m₁.store (p.copy.address L base) n.toBitVec) := by
      rw [effect_store, hrax, hm₁.frame]
    have hw := hm₁.store_copy ha n.toBitVec
    refine ⟨_, hcheck.trans (.effect (p.getElem?_outline 4) hcopy (.refl _)), ?_,
      fun w' hspares => ?_⟩
    · rw [hw.frame]
      exact m₁.load_store _ _
    have hw' := hw.spares hspares
    obtain ⟨m₂, hnext, hrax, hk⟩ := straight_step hr hw'
    have hm₂ := hw'.keeps hk
    by_cases hfits : Fits64 (r.stepped n.toInt)
    · rw [if_pos hfits] at hlaps hnext
      cases hlaps
      have hcounter : m₂.effect L (.move (.register .rax) (.memory p.slots.counter.low)) =
          some (m₂.store (p.slots.counter.address L base) (r.next n).toBitVec) := by
        rw [effect_store, hrax, hm₂.frame]
      refine ⟨_, hnext.trans (.effect (p.getElem?_outline 10) hcounter
        (.jump (p.getElem?_outline 11) ?_)), .lap (hm₂.store_counter ha (r.next n))⟩
      rw [p.target_start]
      exact .refl _
    · rw [if_neg hfits] at hlaps hnext
      cases hlaps
      exact ⟨_, hnext, .ended⟩

/-! ## In front of the laps -/

/-- The start and the end are in their slots, and the step, if there is one, is the result. -/
structure Starts (p : ForPieces) (L : Layout) (r : LoopRange) (m : Machine) : Prop where
  counter : m.load (p.slots.counter.address L (m.registers .rbp)) = r.start.toBitVec
  limit : m.load (p.slots.limit.address L (m.registers .rbp)) = r.stop.toBitVec
  step : p.step ≠ none → m.registers .rax = r.step.toBitVec

/-- Once the step is kept, the first lap is ahead. -/
theorem Starts.holds (h : p.Starts L r m) (ha : p.Apart L (m.registers .rbp)) (hk : m.Keeps m') :
    p.Holds L (m.registers .rbp) r r.start
      (m'.store (p.slots.step.address L (m.registers .rbp)) r.step.toBitVec) where
  frame := hk.base
  counter := by rw [m'.load_store_of_apart _ ha.counter_step, hk.load, h.counter]
  limit := by rw [m'.load_store_of_apart _ ha.limit_step, hk.load, h.limit]
  step := m'.load_store _ _

/-- Where control gets with a step: to the first lap, if the step is positive, and else to a
trap. -/
def afterStep (p : ForPieces) (step : Int64) : Assembly.Place :=
  if step = 0 then .outside (.trap .zeroStep)
  else if step < 0 then .outside (.trap .negativeStep)
  else .inside p.first

theorem afterStep_eq_trap {step : Int64} (t : Trap) : p.afterStep step = .outside (.trap t) ↔
    step = 0 ∧ t = .zeroStep ∨ step < 0 ∧ t = .negativeStep := by
  unfold afterStep
  by_cases hzero : step = 0
  · rw [if_pos hzero, hzero]
    simp [eq_comm]
  by_cases hneg : step < 0
  · rw [if_neg hzero, if_pos hneg]
    simp [hzero, hneg, eq_comm]
  · rw [if_neg hzero, if_neg hneg]
    simp [hzero, hneg]

theorem afterStep_eq_inside {step : Int64} {q : Nat} (h : p.afterStep step = .inside q) :
    q = p.first ∧ ¬ step = 0 ∧ ¬ step < 0 := by
  unfold afterStep at h
  by_cases hzero : step = 0
  · rw [if_pos hzero] at h
    cases h
  by_cases hneg : step < 0
  · rw [if_neg hzero, if_pos hneg] at h
    cases h
  · rw [if_neg hzero, if_neg hneg] at h
    cases h
    exact ⟨rfl, hzero, hneg⟩

/-- The step that goes without saying needs no check. -/
theorem straight_one (h : p.Starts L r m) (ha : p.Apart L (m.registers .rbp))
    (hp : p.step = none) (hstep : r.step = 1) :
    ∃ m', Outline.Straight L p.outline ⟨.inside 0, m⟩ ⟨p.afterStep r.step, m'⟩ ∧
      p.Holds L (m.registers .rbp) r r.start m' := by
  have hcode : p.outline[0]? = some (some (.move (.immediate 1) (.memory p.slots.step.low))) := by
    rw [outline, hp]
    rfl
  have hafter : p.afterStep r.step = .inside 1 := by
    rw [afterStep, hstep, if_neg (by decide), if_neg (by decide), first, hp]
    rfl
  have hholds := h.holds ha (show m.Keeps m from ⟨rfl, rfl⟩)
  rw [hstep] at hholds
  rw [hafter]
  exact ⟨_, .effect hcode effect_one (.refl _), hholds⟩

/-- The flags tell whether a step is zero, and whether it is negative. -/
theorem holds?_describe (k : Int64) (overflow : Bool) :
    (Flags.describe k.toBitVec overflow).holds? .e = some (decide (k = 0)) ∧
      (Flags.describe k.toBitVec overflow).holds? .s = some (decide (k < 0)) := by
  constructor
  · refine congrArg some ?_
    rw [Bool.eq_iff_iff, beq_iff_eq, decide_eq_true_iff, ← Int64.toBitVec_inj]
    rfl
  · refine congrArg some ?_
    rw [BitVec.msb_eq_toInt, Bool.eq_iff_iff, decide_eq_true_iff, decide_eq_true_iff,
      Int64.lt_iff_toInt_lt]
    rfl

/-- A step that is given is checked. -/
theorem straight_checked {c : List Instruction} (h : p.Starts L r m)
    (ha : p.Apart L (m.registers .rbp)) (ht : p.slots.step.type = .integer)
    (hp : p.step = some c) :
    ∃ m', Outline.Straight L p.outline ⟨.inside 0, m⟩ ⟨p.afterStep r.step, m'⟩ ∧
      (¬ r.step = 0 → ¬ r.step < 0 → p.Holds L (m.registers .rbp) r r.start m') := by
  have hrax := h.step (by simp [hp])
  have hkeep : keepStep p.step p.slots.step = [.test .rax, .jumpIf .e (.trap .zeroStep),
      .jumpIf .s (.trap .negativeStep), .move (.register .rax) (.memory p.slots.step.low)] := by
    rw [hp, keepStep, Slot.storeCode, ht]
    rfl
  have hcode : ∀ {i : Nat} {x : Option (Option Instruction)}, (List.map some [Instruction.test .rax,
      .jumpIf .e (.trap .zeroStep), .jumpIf .s (.trap .negativeStep),
      .move (.register .rax) (.memory p.slots.step.low)] ++ p.lapsOutline)[i]? = x →
      p.outline[i]? = x := by
    rintro i _ rfl
    rw [outline, hkeep]
  have htrap : ∀ t, p.outline.target (.trap t) = .outside (.trap t) := fun t =>
    p.target_other (by simp)
  let m₁ := m.setFlags (.describe r.step.toBitVec false)
  have htest : m.effect L (.test .rax) = some m₁ := by
    rw [show m₁ = m.setFlags (.describe (m.registers .rax) false) by rw [hrax]]
    rfl
  obtain ⟨hzero, hneg⟩ := holds?_describe r.step false
  unfold afterStep
  by_cases h0 : r.step = 0
  · refine ⟨m₁, .effect (hcode (i := 0) rfl) htest (.jumpIf (hcode (i := 1) rfl) hzero ?_),
      fun hn => absurd h0 hn⟩
    rw [if_pos (by simpa using h0), if_pos h0, htrap]
    exact .refl _
  rw [decide_eq_false h0] at hzero
  by_cases hn : r.step < 0
  · refine ⟨m₁, .effect (hcode (i := 0) rfl) htest (.jumpIf (hcode (i := 1) rfl) hzero
      (.jumpIf (hcode (i := 2) rfl) hneg ?_)), fun _ h => absurd hn h⟩
    rw [if_pos (by simpa using hn), if_neg h0, if_pos hn, htrap]
    exact .refl _
  rw [decide_eq_false hn] at hneg
  have hstore : m₁.effect L (.move (.register .rax) (.memory p.slots.step.low)) =
      some (m₁.store (p.slots.step.address L (m.registers .rbp)) r.step.toBitVec) := by
    rw [effect_store]
    exact congrArg (fun w => some (m₁.store _ w)) hrax
  refine ⟨_, .effect (hcode (i := 0) rfl) htest (.jumpIf (hcode (i := 1) rfl) hzero
    (.jumpIf (hcode (i := 2) rfl) hneg (.effect (hcode (i := 3) rfl) hstore ?_))),
    fun _ _ => h.holds ha (show m.Keeps m₁ from ⟨rfl, rfl⟩)⟩
  rw [if_neg h0, if_neg hn, first, hkeep]
  exact .refl _

theorem straight_keep (h : p.Starts L r m) (ha : p.Apart L (m.registers .rbp))
    (ht : p.slots.step.type = .integer) (hone : p.step = none → r.step = 1) :
    ∃ m', Outline.Straight L p.outline ⟨.inside 0, m⟩ ⟨p.afterStep r.step, m'⟩ ∧
      (¬ r.step = 0 → ¬ r.step < 0 → p.Holds L (m.registers .rbp) r r.start m') := by
  cases hp : p.step with
  | none =>
    obtain ⟨m', hrun, hholds⟩ := straight_one h ha hp (hone hp)
    exact ⟨m', hrun, fun _ _ => hholds⟩
  | some c => exact straight_checked h ha ht hp

end Gen.ForPieces

end ScriptLang
