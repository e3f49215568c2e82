import ScriptLang.Proofs.Assembly.Initialization
import ScriptLang.Proofs.Codegen.Allotment
import ScriptLang.Proofs.Tree.Settled

/-!
# Code that initialises what it reads

Code is generated with a record of what was run for sure where it ends. A name that has not
strayed means a slot whose first write is among that, and so does a slot that is handed on
without a name. At a label this falls back to what was run where the jumps to it start.
-/

namespace ScriptLang

open Assembly Gen

/-! ## Slots -/

/-- The first write of each part of the slot is among what was run. -/
def Slot.Filled (s : Slot) (g : Generator) (I : Set Instruction) : Prop :=
  ∀ m ∈ s.parts, Initialised g.code.toList I m

/-- The slot was handed out, and no code writes to it yet. -/
structure Slot.Blank (s : Slot) (g : Generator) : Prop where
  within : ∀ n, .frame n ∈ s.parts → -g.frame.used ≤ n
  unwritten : ∀ m ∈ s.parts, m.InFrame → firstStore? m g.code.toList = none

/-- The code does nothing but write all parts of the slot. -/
structure Slot.FilledBy (s : Slot) (c : List Instruction) : Prop where
  inert : ∀ i ∈ c, i.placed? = none ∧ i.target? = none ∧ i.falls = true ∧ i.loads = []
  stores : ∀ i ∈ c, ∀ m ∈ i.stores, m ∈ s.parts
  written : ∀ m ∈ s.parts, ∃ i ∈ c, m ∈ i.stores
  zeroed : ∀ i ∈ c, ∀ m, i.zeroed? = some m → firstStore? m c = some i

theorem Slot.filledBy_store {s : Slot} (h : s.type ≠ .range) {i : Instruction}
    (hi : i.stores = [s.low]) (hinert : i.placed? = none ∧ i.target? = none ∧ i.falls = true ∧
      i.loads = []) : s.FilledBy [i] where
  inert := List.forall_mem_singleton.mpr hinert
  stores := by
    refine List.forall_mem_singleton.mpr fun m hm => ?_
    rw [Slot.parts, if_neg h, ← hi]
    exact hm
  written := fun m hm => ⟨i, List.mem_singleton_self i, by rwa [Slot.parts, if_neg h, ← hi] at hm⟩
  zeroed := by
    refine List.forall_mem_singleton.mpr fun m hm => ?_
    rw [Instruction.eq_of_zeroed? hm]
    exact firstStore?_snoc (c := []) rfl (List.mem_singleton_self m)

theorem Slot.filledBy_storeCode (s : Slot) : s.FilledBy s.storeCode := by
  unfold Slot.storeCode
  split
  · next h => exact filledBy_store (by simp [h]) rfl ⟨rfl, rfl, rfl, rfl⟩
  · next h =>
    have hp : s.parts = [s.low, s.high] := by rw [Slot.parts, if_pos h]
    constructor
    · simp [Instruction.falls]
    · simp [hp]
    · simp [hp]
    · simp
  · next h => exact filledBy_store (by simpa using h) rfl ⟨rfl, rfl, rfl, rfl⟩

/-! ## What was generated so far -/

/-- Code writes to slots only that were handed out, and what it makes zero it does not write
before. -/
structure Orderly (code : List Instruction) (used : Int) : Prop where
  within : ∀ i ∈ code, ∀ n < 0, .frame n ∈ i.stores → -used ≤ n
  zeroed : ∀ i ∈ code, ∀ m, m.InFrame → i.zeroed? = some m → firstStore? m code = some i

theorem Orderly.mono {code : List Instruction} {used used' : Int} (h : Orderly code used)
    (hu : used ≤ used') : Orderly code used' where
  within := fun i hi n hn hm => by
    have hold := h.within i hi n hn hm
    omega
  zeroed := h.zeroed

theorem Orderly.append {code c : List Instruction} {used used' : Int} (h : Orderly code used)
    (hu : used ≤ used') (hs : ∀ i ∈ c, ∀ n < 0, .frame n ∈ i.stores → -used' ≤ n)
    (hz : ∀ i ∈ c, ∀ m, m.InFrame → i.zeroed? = some m →
      firstStore? m code = none ∧ firstStore? m c = some i) : Orderly (code ++ c) used' where
  within := by
    refine List.forall_mem_append.mpr ⟨fun i hi n hn hm => ?_, hs⟩
    have hold := h.within i hi n hn hm
    omega
  zeroed := by
    refine List.forall_mem_append.mpr ⟨fun i hi m hf hm => ?_, fun i hi m hf hm => ?_⟩
    · exact firstStore?_of_prefix (h.zeroed i hi m hf hm) (List.prefix_append _ _)
    · obtain ⟨hnone, hfirst⟩ := hz i hi m hf hm
      rw [firstStore?_append, hnone]
      exact hfirst

variable {g g' g'' : Generator} {c d : List Instruction} {I M O : Set Instruction}

theorem prefix_of_code (h : g'.code = g.code ++ c) : g.code.toList <+: g'.code.toList :=
  ⟨c, by rw [h, Array.toList_appendList]⟩

/-- A slot that is handed out next was never written to. -/
theorem Orderly.blank (h : Orderly g.code.toList g.frame.used) {s : Slot}
    (hs : s.location = .frame (-(g.frame.used + s.type.size))) (hc : g'.code = g.code)
    (hu : g'.frame.used = g.frame.used + s.type.size) : s.Blank g' := by
  have hpart : ∀ n, .frame n ∈ s.parts → -g'.frame.used ≤ n ∧ n < -g.frame.used := by
    intro n hn
    obtain ⟨k, hk, hlow, hhigh⟩ := Slot.part_frame hn hs
    cases hk
    omega
  refine ⟨fun n hn => (hpart n hn).1, fun m hm hf => ?_⟩
  rw [hc]
  refine firstStore?_eq_none.mpr fun i hi hstore => ?_
  cases m with
  | frame n =>
    have hold := h.within i hi n hf hstore
    have hnew := (hpart n hm).2
    omega
  | _ => exact hf

namespace Slot

variable {s : Slot}

theorem Filled.mono (h : s.Filled g I) (hc : g.code.toList <+: g'.code.toList) (hI : I ⊆ O) :
    s.Filled g' O := fun m hm => (h m hm).mono hc hI

/-- Code that does not write to the slot leaves it blank. -/
theorem Blank.append (h : s.Blank g) (hc : g'.code = g.code ++ c)
    (hu : g.frame.used ≤ g'.frame.used) (hw : ∀ i ∈ c, ∀ m ∈ s.parts, m ∉ i.stores) :
    s.Blank g' where
  within := fun n hn => by
    have hold := h.within n hn
    omega
  unwritten := fun m hm hf => by
    rw [hc, Array.toList_appendList, firstStore?_append, h.unwritten m hm hf]
    exact firstStore?_eq_none.mpr fun i hi => hw i hi m hm

/-- Code that writes nothing leaves all blank slots blank. -/
theorem Blank.unchanged (h : s.Blank g) (hc : g'.code = g.code ++ c)
    (hu : g'.frame.used = g.frame.used) (hw : ∀ i ∈ c, i.stores = []) : s.Blank g' :=
  h.append hc (Int.le_of_eq hu.symm) fun i hi m _ hm => by
    rw [hw i hi] at hm
    cases hm

theorem Blank.filled (h : s.Blank g) (hf : s.FilledBy c) (hc : g'.code = g.code ++ c) :
    s.Filled g' (I ∪ {i | i ∈ c}) := by
  intro m hm hframe
  obtain ⟨i, hi, hstore⟩ := hf.written m hm
  cases hfirst : firstStore? m c with
  | none => exact absurd hstore (firstStore?_eq_none.mp hfirst i hi)
  | some i' =>
    refine ⟨i', .inr (mem_of_firstStore? hfirst).1, ?_⟩
    rw [hc, Array.toList_appendList, firstStore?_append, h.unwritten m hm hframe]
    exact hfirst

end Slot

/-- What is known of names holds of the state, where `I` was run. -/
structure Ready (k : Bindings) (g : Generator) (I : Set Instruction) : Prop where
  rooted : g.Rooted
  orderly : Orderly g.code.toList g.frame.used
  bound : ∀ name ∈ k.bound, (g.find? name).isSome = true
  settled : ∀ name, name ∉ k.strayed → ∀ slot, g.find? name = some slot → slot.Filled g I

variable {k k' k'' : Bindings}

/-- Names mean what they meant, and more was run. -/
theorem Ready.mono (h : Ready k g I) (hr : g'.Rooted) (ho : Orderly g'.code.toList g'.frame.used)
    (hn : ∀ name, g'.find? name = g.find? name) (hc : g.code.toList <+: g'.code.toList)
    (hI : I ⊆ O) : Ready k g' O where
  rooted := hr
  orderly := ho
  bound := fun name hname => by rw [hn]; exact h.bound name hname
  settled := fun name hname slot hslot => by
    rw [hn] at hslot
    exact (h.settled name hname slot hslot).mono hc hI

/-- Only what is known of names to be bound or to have strayed counts. -/
theorem Ready.congr (h : Ready k g I) (hb : k'.bound = k.bound) (hs : k'.strayed = k.strayed) :
    Ready k' g I where
  rooted := h.rooted
  orderly := h.orderly
  bound := by rw [hb]; exact h.bound
  settled := by rw [hs]; exact h.settled

/-- A name that has not strayed is declared where it means something. -/
theorem Ready.declare (h : Ready k g I) {name : String} {slot : Slot}
    (hs : g.find? name = some slot) (hf : slot.Filled g I) : Ready (k.declare name) g I where
  rooted := h.rooted
  orderly := h.orderly
  bound := List.forall_mem_cons.mpr ⟨by rw [hs]; rfl, h.bound⟩
  settled := fun other ho slot' hslot => by
    by_cases he : other = name
    · rw [he, hs] at hslot
      cases hslot
      exact hf
    · refine h.settled other (fun hk => ho ?_) slot' hslot
      exact List.mem_filter.mpr ⟨List.mem_cons_of_mem _ hk, by simpa using he⟩

/-- A name that means something may count as bound. -/
theorem Ready.counting (h : Ready k g I) {name : String} {slot : Slot}
    (hs : g.find? name = some slot) : Ready (k.counting name) g I where
  rooted := h.rooted
  orderly := h.orderly
  bound := List.forall_mem_cons.mpr ⟨by rw [hs]; rfl, h.bound⟩
  settled := h.settled

/-- From one state to another, only names that are touched change their meaning. -/
def Turns (k k' : Bindings) (g g' : Generator) : Prop :=
  ∃ new, k'.touched = new ++ k.touched ∧ (∀ name ∉ new, g'.find? name = g.find? name) ∧
    (∀ name, (g.find? name).isSome = true → (g'.find? name).isSome = true) ∧
    (k.jumped = true → k'.jumped = true)

namespace Turns

theorem same (hn : ∀ name, g'.find? name = g.find? name) (ht : k'.touched = k.touched)
    (hj : k.jumped = true → k'.jumped = true) : Turns k k' g g' :=
  ⟨[], ht, fun name _ => hn name, fun name => by rw [hn]; exact id, hj⟩

theorem trans (h : Turns k k' g g') (h' : Turns k' k'' g' g'') : Turns k k'' g g'' := by
  obtain ⟨new, ht, hn, hb, hj⟩ := h
  obtain ⟨new', ht', hn', hb', hj'⟩ := h'
  refine ⟨new' ++ new, by rw [ht', ht, List.append_assoc], fun name hname => ?_,
    fun name hname => hb' name (hb name hname), fun hk => hj' (hj hk)⟩
  rw [List.mem_append, not_or] at hname
  rw [hn' name hname.1, hn name hname.2]

end Turns

/-- Behind a part that was perhaps skipped, names are known that it left alone. -/
theorem Ready.skipping (h : Ready k g I) (h' : Ready k' g' O) (ht : Turns k k' g g')
    (hc : g.code.toList <+: g'.code.toList) : Ready (k.skipping k') g' I where
  rooted := h'.rooted
  orderly := h'.orderly
  bound := h'.bound
  settled := by
    obtain ⟨new, htouched, hn, -, -⟩ := ht
    intro name hname slot hslot
    have hnew : k'.touched.take (k'.touched.length - k.touched.length) = new := by
      rw [htouched, List.length_append, Nat.add_sub_cancel, List.take_left']
      rfl
    rw [Bindings.skipping, hnew, List.mem_append, not_or] at hname
    rw [hn name hname.1] at hslot
    exact (h.settled name hname.2 slot hslot).mono hc subset_rfl

/-! ## What is said of labels -/

/-- The two agree on the labels with numbers above `low` up to `high`. -/
def Coincides (J j : Label → Set Instruction) (low high : Nat) : Prop :=
  ∀ mark n, low < n → n ≤ high → J (.numbered mark n) = j (.numbered mark n)

/-- Labels up to a number are given by `j`, and those above it by `j'`. -/
def splice (b : Nat) (j j' : Label → Set Instruction) : Label → Set Instruction
  | .numbered mark n => if n ≤ b then j (.numbered mark n) else j' (.numbered mark n)
  | _ => ∅

theorem Coincides.of_splice {J j j' : Label → Set Instruction} {low mid high : Nat}
    (h : Coincides J (splice mid j j') low high) (hl : low ≤ mid) (hh : mid ≤ high) :
    Coincides J j low mid ∧ Coincides J j' mid high := by
  constructor
  · intro mark n hn hm
    rw [h mark n hn (Nat.le_trans hm hh), splice, if_pos hm]
  · intro mark n hn hm
    rw [h mark n (Nat.lt_of_le_of_lt hl hn) hm, splice, if_neg (Nat.not_le.mpr hn)]

/-- Nothing is said of labels without numbers, to which calls, returns and traps lead. -/
def Unmarked (J : Label → Set Instruction) : Prop :=
  ∀ l, (∀ mark n, l ≠ .numbered mark n) → J l = ∅

/-- Jumps out of code are to labels in front of which no more was run than where it starts. -/
structure Allows (J : Label → Set Instruction) (g : Generator) (jumped : Bool)
    (I : Set Instruction) : Prop where
  outside : Unmarked J
  exits : jumped = true → ∀ l, g.Exit l → J l ⊆ I

theorem Allows.mono {J : Label → Set Instruction} {j j' : Bool} (h : Allows J g j I)
    (he : g.Extends g') (hj : j' = true → j = true) (hI : I ⊆ O) : Allows J g' j' O where
  outside := h.outside
  exits := fun hj' l hl => (h.exits (hj hj') l
    (hl.congr he.loops.symm he.current.symm he.topLevelExit.symm)).trans hI

/-! ## Passing through code -/

variable {P Q : (Label → Set Instruction) → Prop}

/-- From the first state to the second this code was made, which initialises what it reads:
with `I` run in front of it, `O` is run behind it. Of labels that others place, `P` is said. -/
structure Passes (P : (Label → Set Instruction) → Prop) (k k' : Bindings) (g g' : Generator)
    (I : Set Instruction) (c : List Instruction) (O : Set Instruction) : Prop where
  code : g'.code = g.code ++ c
  kept : g.Extends g'
  labels : g.labels ≤ g'.labels
  turns : Turns k k' g g'
  ran : I ⊆ O
  ready : Ready k' g' O
  flow : ∃ j, ∀ J, P J → Coincides J j g.labels g'.labels → Allows J g k'.jumped I →
    ∀ all, g'.code.toList <+: all → Flows all J I c O

namespace Passes

theorem append (h : Passes P k k' g g' I c M) (h' : Passes P k' k'' g' g'' M d O) :
    Passes P k k'' g g'' I (c ++ d) O where
  code := by rw [h'.code, h.code]; exact Array.ext' (by simp)
  kept := h.kept.trans h'.kept
  labels := Nat.le_trans h.labels h'.labels
  turns := h.turns.trans h'.turns
  ran := h.ran.trans h'.ran
  ready := h'.ready
  flow := by
    obtain ⟨j, hj⟩ := h.flow
    obtain ⟨j', hj'⟩ := h'.flow
    obtain ⟨_, -, -, -, hjumped⟩ := h'.turns
    refine ⟨splice g'.labels j j', fun J hP hJ hallows all hall => ?_⟩
    obtain ⟨hJ₁, hJ₂⟩ := hJ.of_splice h.labels h'.labels
    have hfirst := hj J hP hJ₁ ⟨hallows.outside, fun hk => hallows.exits (hjumped hk)⟩ all
      ((prefix_of_code h'.code).trans hall)
    have hsecond := hj' J hP hJ₂ (hallows.mono h.kept id h.ran) all hall
    exact hfirst.append fun hM => hsecond.weaken hM subset_rfl

theorem weaken (h : Passes Q k k' g g' I c O) (hP : ∀ J, P J → Q J) :
    Passes P k k' g g' I c O := by
  obtain ⟨j, hj⟩ := h.flow
  exact ⟨h.code, h.kept, h.labels, h.turns, h.ran, h.ready, j, fun J hJ => hj J (hP J hJ)⟩

/-- Nothing is made, or nothing that counts. -/
theorem of_adds {ds : List Fault} (h : Ready k g I) (ha : g.Adds ds g')
    (hl : g.labels ≤ g'.labels) (hc : g'.code = g.code ++ c)
    (ho : Orderly g'.code.toList g'.frame.used) (hI : I ⊆ O)
    (hf : ∀ J, P J → Allows J g k.jumped I → ∀ all, g'.code.toList <+: all → Flows all J I c O) :
    Passes P k k g g' I c O where
  code := hc
  kept := ha.extends
  labels := hl
  turns := .same ha.find? rfl id
  ran := hI
  ready := h.mono (ha.extends.rooted h.rooted) ho ha.find? (prefix_of_code hc) hI
  flow := ⟨fun _ => ∅, fun J hP _ => hf J hP⟩

end Passes

/-! ## Emitting code -/

namespace Generator

/-- Behind code that is emitted. -/
def emitting (g : Generator) (c : List Instruction) : Generator := { g with code := g.code ++ c }

/-- Behind the number of a statement. -/
def numbered (g : Generator) : Generator := { g with labels := g.labels + 1 }

/-- In the body of a loop. -/
def looping (g : Generator) (labels : LoopLabels) : Generator :=
  { g with loops := labels :: g.loops }

/-- Behind the body of a loop. -/
def looped (g : Generator) : Generator := { g with loops := g.loops.tail }

theorem adds_emitting (g : Generator) (c : List Instruction) : g.Adds [] (g.emitting c) :=
  ⟨rfl, rfl, rfl, rfl, rfl, rfl, (List.append_nil _).symm⟩

theorem emitting_emitting (g : Generator) (c d : List Instruction) :
    (g.emitting c).emitting d = g.emitting (c ++ d) := by
  unfold emitting
  rw [show g.code ++ c ++ d = g.code ++ (c ++ d) from Array.ext' (by simp)]

theorem toList_emitting (g : Generator) (c : List Instruction) :
    (g.emitting c).code.toList = g.code.toList ++ c := Array.toList_appendList

end Generator

/-- The instruction writes to what was written before, and makes nothing zero. -/
def Modest (g : Generator) (I : Set Instruction) (i : Instruction) : Prop :=
  (∀ m ∈ i.stores, Initialised g.code.toList I m) ∧ i.zeroed? = none

theorem modest_of_stores {i : Instruction} (hs : i.stores = []) (hz : i.zeroed? = none) :
    Modest g I i :=
  ⟨by rw [hs]; exact fun _ h => absurd h List.not_mem_nil, hz⟩

/-- The instruction names what was written before. It falls through, or is a jump out of the
function or to a handler. -/
structure Proper (g : Generator) (I : Set Instruction) (i : Instruction) : Prop where
  placed : i.placed? = none
  falls : i.falls = true
  target : ∀ l ∈ i.target?, ∀ mark n, l ≠ .numbered mark n
  memories : ∀ m ∈ i.memories, Initialised g.code.toList I m
  zeroed : i.zeroed? = none

theorem proper_iff {i : Instruction} : Proper g I i ↔ i.placed? = none ∧ i.falls = true ∧
    (∀ l ∈ i.target?, ∀ mark n, l ≠ .numbered mark n) ∧
    (∀ m ∈ i.memories, Initialised g.code.toList I m) ∧ i.zeroed? = none :=
  ⟨fun ⟨a, b, c, d, e⟩ => ⟨a, b, c, d, e⟩, fun ⟨a, b, c, d, e⟩ => ⟨a, b, c, d, e⟩⟩

/-- Straight code that names what was written before. -/
theorem proper_straight (h : c.all Instruction.isStraight = true)
    (hm : ∀ m ∈ c.flatMap (·.memories), Initialised g.code.toList I m) :
    ∀ i ∈ c, Proper g I i := by
  intro i hi
  obtain ⟨hp, ht, hf, hz⟩ := Instruction.of_isStraight (List.all_eq_true.mp h i hi)
  exact ⟨hp, hf, by rw [ht]; nofun, fun m hi' => hm m (List.mem_flatMap.mpr ⟨i, hi, hi'⟩), hz⟩

/-- Straight code that names no memory. -/
theorem proper_bare (h : c.all Instruction.isStraight = true)
    (hm : c.flatMap (·.memories) = []) : ∀ i ∈ c, Proper g I i :=
  proper_straight h (by rw [hm]; exact fun _ h => absurd h List.not_mem_nil)

theorem Proper.modest {i : Instruction} (h : Proper g I i) : Modest g I i :=
  ⟨fun m hm => h.memories m (Instruction.memories_of_stores hm), h.zeroed⟩

/-- An instruction that falls through adds itself to what was run. -/
theorem subset_after {J : Label → Set Instruction} {i : Instruction} (hp : i.placed? = none)
    (hf : i.falls = true) : insert i I ⊆ i.after J I := by
  unfold Instruction.after
  split
  · cases hp
  · cases hf
  · cases hf
  · exact subset_rfl

theorem flow_proper {J : Label → Set Instruction} {all : List Instruction}
    (hJ : Unmarked J) (hall : g.code.toList <+: all) :
    ∀ {c : List Instruction} {M : Set Instruction}, (∀ i ∈ c, Proper g I i) → I ⊆ M →
      Flows all J M c I
  | [], _, _, hM => hM
  | i :: c, M, hc, hM => by
    obtain ⟨hi, hc⟩ := List.forall_mem_cons.mp hc
    refine ⟨fun m hm => ?_, ?_, ?_⟩
    · exact (hi.memories m (Instruction.memories_of_loads hm)).mono hall hM
    · rintro l (hl | hl)
      · rw [hi.placed] at hl
        cases hl
      · rw [hJ l (hi.target l hl)]
        exact Set.empty_subset _
    · exact flow_proper hJ hall hc
        (hM.trans ((Set.subset_insert i M).trans (subset_after hi.placed hi.falls)))

/-- All of the code is run that neither reads the frame nor leads anywhere. -/
theorem flow_inert {J : Label → Set Instruction} {all : List Instruction} :
    ∀ {c : List Instruction} {I : Set Instruction}, (∀ i ∈ c, i.placed? = none ∧
      i.target? = none ∧ i.falls = true ∧ i.loads = []) → Flows all J I c (I ∪ {i | i ∈ c})
  | [], I, _ => by simp [Flows]
  | i :: c, I, hc => by
    obtain ⟨⟨hp, ht, hf, hl⟩, hc⟩ := List.forall_mem_cons.mp hc
    refine ⟨fun m hm => ?_, ?_, (flow_inert hc).weaken (subset_after hp hf) fun s hs => ?_⟩
    · rw [hl] at hm
      cases hm
    · rintro l (h | h)
      · cases hp.symm.trans h
      · cases ht.symm.trans h
    · rcases hs with hs | hs
      · exact .inl (.inr hs)
      · rcases List.mem_cons.mp hs with rfl | hs
        · exact .inl (.inl rfl)
        · exact .inr hs

namespace Ready

theorem orderly_emitting (h : Ready k g I) (hc : ∀ i ∈ c, Modest g I i) :
    Orderly (g.emitting c).code.toList g.frame.used := by
  rw [g.toList_emitting]
  refine h.orderly.append (Int.le_refl _) (fun i hi n hn hm => ?_) fun i hi m _ hm => ?_
  · obtain ⟨s, -, hs⟩ := (hc i hi).1 _ hm hn
    obtain ⟨hcode, hstore⟩ := mem_of_firstStore? hs
    exact h.orderly.within s hcode n hn hstore
  · rw [(hc i hi).2] at hm
    cases hm

theorem numbered (h : Ready k g I) : Ready k g.numbered I :=
  h.mono h.rooted h.orderly (fun _ => rfl) List.prefix_rfl subset_rfl

theorem looping (h : Ready k g I) (labels : LoopLabels) : Ready k (g.looping labels) I :=
  h.mono h.rooted h.orderly (fun _ => rfl) List.prefix_rfl subset_rfl

theorem pushed (h : Ready k g I) : Ready k g.pushed I :=
  h.mono (List.cons_ne_nil _ _) h.orderly (fun _ => rfl) List.prefix_rfl subset_rfl

theorem emitting (h : Ready k g I) (hc : ∀ i ∈ c, Modest g I i) (hI : I ⊆ O) :
    Ready k (g.emitting c) O :=
  h.mono h.rooted (h.orderly_emitting hc) (fun _ => rfl) (prefix_of_code rfl) hI

end Ready

namespace Passes

theorem emitting (h : Ready k g I) (hc : ∀ i ∈ c, Modest g I i) (hI : I ⊆ O)
    (hf : ∀ J, P J → Allows J g k.jumped I → ∀ all, (g.emitting c).code.toList <+: all →
      Flows all J I c O) : Passes P k k g (g.emitting c) I c O :=
  .of_adds h (g.adds_emitting c) (Nat.le_refl _) rfl (h.orderly_emitting hc) hI hf

theorem proper (h : Ready k g I) (hc : ∀ i ∈ c, Proper g I i) :
    Passes P k k g (g.emitting c) I c I :=
  emitting h (fun i hi => (hc i hi).modest) subset_rfl fun _ _ hJ _ hall =>
    flow_proper hJ.outside ((prefix_of_code rfl).trans hall) hc subset_rfl

/-- Code that jumps on a condition to a label of the statement it is part of. -/
theorem branching (h : Ready k g I) (hc : ∀ i ∈ c, Proper g I i) (condition : Condition)
    {l : Label} (hl : ∀ J, P J → J l ⊆ I) :
    Passes P k k g (g.emitting (c ++ [.jumpIf condition l])) I (c ++ [.jumpIf condition l]) I := by
  refine emitting h (List.forall_mem_append.mpr ⟨fun i hi => (hc i hi).modest,
    List.forall_mem_singleton.mpr (modest_of_stores rfl rfl)⟩) subset_rfl fun J hP hJ all hall => ?_
  refine (flow_proper hJ.outside ((prefix_of_code rfl).trans hall) hc subset_rfl).append fun hM =>
    ⟨nofun, ?_, hM.trans (Set.subset_insert _ _)⟩
  rintro l' (h | h)
  · cases h
  · cases h
    exact (hl J hP).trans hM

/-- What stands behind a jump is not run from there. -/
theorem jumping (h : Ready k g I) (hk : k' = k ∨ k' = k.jump) {l : Label}
    (hl : ∀ J, P J → Allows J g k'.jumped I → J l ⊆ I) :
    Passes P k k' g (g.emitting [.jump l]) I [.jump l] Set.univ where
  code := rfl
  kept := (g.adds_emitting _).extends
  labels := Nat.le_refl _
  turns := by
    rcases hk with rfl | rfl
    · exact .same (fun _ => rfl) rfl id
    · exact .same (fun _ => rfl) rfl fun _ => rfl
  ran := Set.subset_univ _
  ready := by
    have hready := h.emitting (List.forall_mem_singleton.mpr
      (modest_of_stores (i := .jump l) rfl rfl)) (Set.subset_univ _)
    rcases hk with rfl | rfl
    · exact hready
    · exact hready.congr rfl rfl
  flow := by
    refine ⟨fun _ => ∅, fun J hP _ hJ all _ => ⟨nofun, ?_, subset_rfl⟩⟩
    rintro l' (h | h)
    · cases h
    · cases h
      exact hl J hP hJ

/-- A label in front of code that is run again. -/
theorem starting (h : Ready k g I) {l : Label} (hl : ∀ J, P J → J l = I) :
    Passes P k k g (g.emitting [.label l]) I [.label l] I := by
  refine emitting h (List.forall_mem_singleton.mpr (modest_of_stores rfl rfl)) subset_rfl
    fun J hP _ all _ => ⟨nofun, ?_, (hl J hP).symm.subset⟩
  rintro l' (h | h)
  · cases h
    exact (hl J hP).subset
  · cases h

/-- Code with a label behind it, in front of which `M` is run. -/
theorem labelled (h : Passes P k k' g g' I c O) {l : Label} (hl : ∀ J, P J → J l = M)
    (hI : I ⊆ M) (hO : M ⊆ O) (hk : k''.touched = k'.touched) (hj : k''.jumped = k'.jumped)
    (hready : Ready k'' g' M) :
    Passes P k k'' g (g'.emitting [.label l]) I (c ++ [.label l]) M where
  code := by rw [Generator.emitting, h.code]; exact Array.ext' (by simp)
  kept := h.kept.trans (g'.adds_emitting _).extends
  labels := h.labels
  turns := h.turns.trans (.same (fun _ => rfl) hk fun hj' => hj.trans hj')
  ran := hI
  ready := hready.emitting (List.forall_mem_singleton.mpr (modest_of_stores rfl rfl)) subset_rfl
  flow := by
    obtain ⟨j, hflow⟩ := h.flow
    refine ⟨j, fun J hP hJ hallows all hall => ?_⟩
    have hfirst := hflow J hP hJ (hj ▸ hallows) all ((prefix_of_code rfl).trans hall)
    refine hfirst.append fun hO' => ⟨nofun, ?_, (hl J hP).symm.subset⟩
    rintro l' (hl' | hl')
    · cases hl'
      exact (hl J hP).subset.trans (hO.trans hO')
    · cases hl'

/-- A part that control may skip, with the label behind it. -/
theorem skip (h : Passes P k k' g g' I c O) (hr : Ready k g I) {l : Label}
    (hl : ∀ J, P J → J l = I) :
    Passes P k (k.skipping k') g (g'.emitting [.label l]) I (c ++ [.label l]) I :=
  h.labelled hl subset_rfl h.ran rfl rfl (hr.skipping h.ready h.turns (prefix_of_code h.code))

/-- A part that control skips by jumps only, with the label behind it. -/
theorem join (h : Passes P k k' g g' I c O) (hr : Ready k g I) {l : Label}
    (hl : ∀ J, P J → J l = if k'.jumped = true then I else O) :
    Passes P k (k.joining k') g (g'.emitting [.label l]) I (c ++ [.label l])
      (if k'.jumped = true then I else O) := by
  unfold Bindings.joining
  split
  · next hj =>
    refine h.skip hr fun J hP => ?_
    rw [hl J hP, if_pos hj]
  · next hj =>
    refine h.labelled (fun J hP => ?_) h.ran subset_rfl rfl rfl h.ready
    rw [hl J hP, if_neg hj]

/-- The statement gives the labels it places, which share a number. -/
theorem own (h : Passes P k k' g.numbered g' I c O) {s : Mark → Set Instruction}
    (hs : ∀ J : Label → Set Instruction, (∀ mark, J (.numbered mark (g.labels + 1)) = s mark) →
      P J) : Passes (fun _ => True) k k' g g' I c O where
  code := h.code
  kept := { h.kept with }
  labels := Nat.le_of_succ_le h.labels
  turns := h.turns
  ran := h.ran
  ready := h.ready
  flow := by
    obtain ⟨j, hflow⟩ := h.flow
    refine ⟨splice (g.labels + 1) (fun l => match l with
      | .numbered mark _ => s mark
      | _ => ∅) j, fun J _ hJ hallows => ?_⟩
    obtain ⟨hown, hrest⟩ := hJ.of_splice (Nat.le_succ _) h.labels
    exact hflow J (hs J fun mark => hown mark _ (Nat.lt_succ_self _) (Nat.le_refl _)) hrest
      ⟨hallows.outside, fun hj l hl => hallows.exits hj l (hl.congr rfl rfl rfl)⟩

/-- The body of a loop, whose jumps to the labels of the loop are made good for. -/
theorem loop {labels : LoopLabels} (h : Passes P k k' (g.looping labels) g' I c O)
    (hl : ∀ J, P J → k'.jumped = true → J labels.onContinue ⊆ I ∧ J labels.onBreak ⊆ I) :
    Passes P k k' g g'.looped I c O where
  code := h.code
  kept := { h.kept with loops := congrArg List.tail h.kept.loops }
  labels := h.labels
  turns := h.turns
  ran := h.ran
  ready := h.ready.mono h.ready.rooted h.ready.orderly (fun _ => rfl) (List.prefix_refl _)
    subset_rfl
  flow := by
    obtain ⟨j, hflow⟩ := h.flow
    refine ⟨j, fun J hP hJ hallows => hflow J hP hJ ⟨hallows.outside, fun hj l hexit => ?_⟩⟩
    cases hexit with
    | again he => cases he; exact (hl J hP hj).1
    | done he => cases he; exact (hl J hP hj).2
    | topLevel he => exact hallows.exits hj _ (.topLevel he)
    | epilogue => exact hallows.exits hj _ .epilogue
    | trap t => exact hallows.exits hj _ (.trap t)

/-- Jumps in front of a part are none of the part. -/
theorem rejoin (h : Passes P k.unjumped k' g g' I c O) :
    Passes P k (k.rejoining k') g g' I c O where
  __ := h
  turns := by
    obtain ⟨new, ht, hn, hb, -⟩ := h.turns
    exact ⟨new, ht, hn, hb, fun hj => by simp [Bindings.rejoining, hj]⟩
  ready := h.ready.congr rfl rfl
  flow := by
    obtain ⟨j, hflow⟩ := h.flow
    refine ⟨j, fun J hP hJ hallows => hflow J hP hJ ⟨hallows.outside, fun hj => ?_⟩⟩
    exact hallows.exits (by simp [Bindings.rejoining, hj])

/-- Less is known of names, or more of what was touched. -/
theorem loosen (h : Passes P k k' g g' I c O)
    (hb : ∀ name ∈ k''.bound, (g'.find? name).isSome = true) (hs : k'.strayed ⊆ k''.strayed)
    (ht : ∃ new, k''.touched = new ++ k'.touched) (hj : k''.jumped = k'.jumped) :
    Passes P k k'' g g' I c O where
  __ := h
  turns := by
    obtain ⟨new, htouched, hn, hbound, hjumped⟩ := h.turns
    obtain ⟨more, hmore⟩ := ht
    refine ⟨more ++ new, by rw [hmore, htouched, List.append_assoc], fun name hname => ?_, hbound,
      fun hk => hj.trans (hjumped hk)⟩
    exact hn name fun h => hname (List.mem_append_right _ h)
  ready := ⟨h.ready.rooted, h.ready.orderly, hb, fun name hname =>
    h.ready.settled name fun hk => hname (hs hk)⟩
  flow := by
    obtain ⟨j, hflow⟩ := h.flow
    exact ⟨j, fun J hP hJ hallows => hflow J hP hJ (hj ▸ hallows)⟩

/-- To know the counter of a loop touches no name. -/
theorem of_counting {name : String} (h : Passes P (k.counting name) k' g g' I c O) :
    Passes P k k' g g' I c O :=
  ⟨h.code, h.kept, h.labels, h.turns, h.ran, h.ready, h.flow⟩

/-- What was touched in front of a part is none of the part. -/
theorem rebase (h : Passes P k k' g g' I c O) (touched : List String) :
    ∃ k'', k''.jumped = k'.jumped ∧ Passes P { k with touched } k'' g g' I c O := by
  obtain ⟨new, -, hn, hb, hj⟩ := h.turns
  exact ⟨{ k' with touched := new ++ touched }, rfl, h.code, h.kept, h.labels,
    ⟨new, rfl, hn, hb, hj⟩, h.ran, h.ready.congr rfl rfl, h.flow⟩

/-- Behind a scope, names are what they were. -/
theorem scope (h : Passes P k'' k' g.pushed g' I c O) (hr : Ready k g I)
    (hj : k.jumped = true → k''.jumped = true) :
    Passes P k (k.leaving k') g g'.popped I c O := by
  have hscopes := h.kept.popped hr.rooted
  have hn : ∀ name, g'.popped.find? name = g.find? name := fun name => by
    rw [Generator.find?, Generator.find?, Frame.find?, Frame.find?, hscopes]
    exact congrArg _ (congrArg (·.find? name) h.kept.globals)
  have hrooted : g'.popped.Rooted := by
    rw [Generator.Rooted, hscopes]
    exact hr.rooted
  have horderly : Orderly g'.code.toList g'.frame.pop.used := by
    rw [Frame.used_pop]
    exact h.ready.orderly
  refine ⟨h.code, ⟨h.kept.signatures, h.kept.globals, by rw [hscopes], by rw [hscopes],
    h.kept.loops, h.kept.current, h.kept.topLevelExit⟩, h.labels, .same hn rfl ?_, h.ran, ?_, ?_⟩
  · obtain ⟨_, -, -, -, hjumped⟩ := h.turns
    exact fun hk => hjumped (hj hk)
  · exact (hr.mono hrooted horderly hn (prefix_of_code h.code) h.ran).congr rfl rfl
  · obtain ⟨j, hflow⟩ := h.flow
    exact ⟨j, fun J hP hJ hallows => hflow J hP hJ ⟨hallows.outside, fun hj l hl =>
      hallows.exits hj l (hl.congr rfl rfl rfl)⟩⟩

end Passes

end ScriptLang
