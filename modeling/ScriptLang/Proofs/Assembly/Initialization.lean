import Mathlib.Data.Set.Insert
import ScriptLang.Proofs.Assembly.Stack

/-!
# Memory that is written before it is read

A frame holds whatever the stack held before. Code is gone through with what was run for
sure at each place: in front of a label, what was run wherever control may come from. If
that includes the first write of all that is read, no path reads what it has not written.
-/

namespace ScriptLang.Assembly

/-- The memory lies below the frame pointer. What lies above it was written by a caller. -/
def Memory.InFrame : Memory → Prop
  | frame n => n < 0
  | _ => False

namespace Instruction

/-- The memory an instruction reads. -/
@[simp] def loads : Instruction → List Memory
  | move s _ | integer _ s _ | bits _ s _ | bitsByte _ s _ | compare s _ | push s => s.memories
  | compareByte _ m | loadFloat m _ | floatMemory _ m _ => [m]
  | _ => []

/-- The memory an instruction makes zero. -/
@[simp] def zeroed? : Instruction → Option Memory
  | move (.immediate 0) (.memory m) => some m
  | _ => none

variable {i : Instruction} {m : Memory}

theorem memories_of_loads (h : m ∈ i.loads) : m ∈ i.memories := by
  cases i with
  | move s t => exact List.mem_append_left _ h
  | _ => first | exact h | cases h

theorem eq_of_zeroed? (h : i.zeroed? = some m) : i = .move (.immediate 0) (.memory m) := by
  unfold zeroed? at h
  split at h
  · cases h
    rfl
  · cases h

/-- The instruction falls through, leads nowhere and makes nothing zero. -/
def isStraight (i : Instruction) : Bool :=
  i.placed?.isNone && i.target?.isNone && i.falls && i.zeroed?.isNone

theorem of_isStraight (h : i.isStraight = true) :
    i.placed? = none ∧ i.target? = none ∧ i.falls = true ∧ i.zeroed? = none := by
  simpa only [isStraight, Bool.and_eq_true, Option.isNone_iff_eq_none, and_assoc] using h

/-- What was run for sure behind an instruction. No control comes from a jump to what
stands behind it. -/
def after (J : Label → Set Instruction) (I : Set Instruction) : Instruction → Set Instruction
  | label l => J l
  | jump _ | «return» => Set.univ
  | i => insert i I

end Instruction

/-- The instruction of some code that writes the memory first. -/
def firstStore? (m : Memory) (code : List Instruction) : Option Instruction :=
  code.find? (m ∈ ·.stores)

section

variable {m : Memory} {c d : List Instruction} {i : Instruction}

theorem firstStore?_eq_none : firstStore? m c = none ↔ ∀ i ∈ c, m ∉ i.stores := by
  simp only [firstStore?, List.find?_eq_none, decide_eq_true_eq]

theorem mem_of_firstStore? (h : firstStore? m c = some i) : i ∈ c ∧ m ∈ i.stores := by
  have hp : decide (m ∈ i.stores) = true :=
    List.find?_some (p := fun i : Instruction => m ∈ i.stores) h
  exact ⟨List.mem_of_find?_eq_some h, of_decide_eq_true hp⟩

theorem firstStore?_append : firstStore? m (c ++ d) = (firstStore? m c).or (firstStore? m d) :=
  List.find?_append

/-- The first write stays the first when code is added. -/
theorem firstStore?_of_prefix (h : firstStore? m c = some i) (hd : c <+: d) :
    firstStore? m d = some i := by
  obtain ⟨rest, rfl⟩ := hd
  rw [firstStore?_append, h]
  rfl

/-- What was not written before is written first here. -/
theorem firstStore?_snoc (h : firstStore? m c = none) (hi : m ∈ i.stores) :
    firstStore? m (c ++ [i]) = some i := by
  rw [firstStore?_append, h]
  exact List.find?_cons_of_pos (p := fun i : Instruction => m ∈ i.stores) (decide_eq_true hi)

end

/-- If the memory lies in the frame, the first write of it was run. -/
def Initialised (code : List Instruction) (I : Set Instruction) (m : Memory) : Prop :=
  m.InFrame → ∃ i ∈ I, firstStore? m code = some i

theorem Initialised.mono {c d : List Instruction} {I I' : Set Instruction} {m : Memory}
    (h : Initialised c I m) (hc : c <+: d) (hI : I ⊆ I') : Initialised d I' m := by
  intro hm
  obtain ⟨i, hi, hfirst⟩ := h hm
  exact ⟨i, hI hi, firstStore?_of_prefix hfirst hc⟩

/-- Constants are there from the start. -/
theorem initialised_data {c : List Instruction} {I : Set Instruction} (l : Label) (n : Nat) :
    Initialised c I (.data l n) := False.elim

/-- Code reads only what was initialised, if `I` was run in front of it, and `J` in front of
each label; then `O` was run behind it. -/
def Flows (all : List Instruction) (J : Label → Set Instruction) :
    Set Instruction → List Instruction → Set Instruction → Prop
  | I, [], O => O ⊆ I
  | I, i :: c, O => (∀ m ∈ i.loads, Initialised all I m) ∧
    (∀ l, i.placed? = some l ∨ i.target? = some l → J l ⊆ I) ∧ Flows all J (i.after J I) c O

namespace Flows

variable {all c d : List Instruction} {J : Label → Set Instruction} {I I' M O O' : Set Instruction}

theorem append : ∀ {c : List Instruction} {I : Set Instruction}, Flows all J I c M →
    (∀ {M'}, M ⊆ M' → Flows all J M' d O) → Flows all J I (c ++ d) O
  | [], _, hc, hd => hd hc
  | _ :: _, _, ⟨hl, ht, hc⟩, hd => ⟨hl, ht, hc.append hd⟩

theorem after_mono (i : Instruction) (h : I ⊆ I') : i.after J I ⊆ i.after J I' := by
  unfold Instruction.after
  split
  · exact subset_rfl
  · exact subset_rfl
  · exact subset_rfl
  · exact Set.insert_subset_insert h

/-- More was run in front, and less is asked for behind. -/
theorem weaken : ∀ {c : List Instruction} {I I' : Set Instruction}, Flows all J I c O → I ⊆ I' →
    O' ⊆ O → Flows all J I' c O'
  | [], _, _, h, hI, hO => hO.trans (h.trans hI)
  | i :: _, _, _, ⟨hl, ht, hc⟩, hI, hO =>
    ⟨fun m hm => (hl m hm).mono (List.prefix_refl _) hI, fun l h => (ht l h).trans hI,
      hc.weaken (after_mono i hI) hO⟩

/-- Only what is written first counts of the whole code. -/
theorem congr {all' : List Instruction} (h : ∀ m, firstStore? m all' = firstStore? m all) :
    ∀ {c : List Instruction} {I : Set Instruction}, Flows all J I c O → Flows all' J I c O
  | [], _, hc => hc
  | _ :: _, _, ⟨hl, ht, hc⟩ =>
    ⟨fun m hm hf => by rw [h]; exact hl m hm hf, ht, hc.congr h⟩

/-- Code behind some place, with what was run there if control came from above. -/
theorem drop : ∀ {c : List Instruction} {I : Set Instruction} (n : Nat), Flows all J I c O →
    ∃ I', Flows all J I' (c.drop n) O
  | [], I, _, h => ⟨I, by rwa [List.drop_nil]⟩
  | _ :: _, I, 0, h => ⟨I, h⟩
  | _ :: _, _, n + 1, h => drop n h.2.2

end Flows

/-- The places control can be at, with what was run on the way there, latest first. -/
inductive Course (code : List Instruction) : List Instruction → Nat → Prop
  | entry : Course code [] 0
  | next {trace n i} : Course code trace n → code[n]? = some i → i.falls = true →
    Course code (i :: trace) (n + 1)
  | jump {trace n k i l} : Course code trace n → code[n]? = some i → i.target? = some l →
    code[k]? = some (.label l) → Course code (i :: trace) k

/-- Control falls through the head of the code. -/
theorem Course.straight {code : List Instruction} : ∀ {n : Nat}, n ≤ code.length →
    (∀ i ∈ code.take n, i.falls = true) → Course code (code.take n).reverse n
  | 0, _, _ => .entry
  | n + 1, hn, hf => by
    rw [List.take_succ_eq_append_getElem hn] at hf ⊢
    obtain ⟨hf, hlast⟩ := List.forall_mem_append.mp hf
    rw [List.reverse_append]
    exact .next (straight (Nat.le_of_succ_le hn) hf) (List.getElem?_eq_getElem hn)
      (hlast _ (List.mem_singleton_self _))

theorem drop_of_getElem? {α : Type} {as : List α} {n : Nat} {a : α} (h : as[n]? = some a) :
    as.drop n = a :: as.drop (n + 1) := by
  obtain ⟨hn, rfl⟩ := List.getElem?_eq_some_iff.mp h
  exact List.drop_eq_getElem_cons hn

namespace Flows

variable {code trace : List Instruction} {J : Label → Set Instruction} {O : Set Instruction}
  {n : Nat} {i : Instruction} {m : Memory}

/-- What falls through adds itself, at most, to what was run. -/
theorem after_subset {I : Set Instruction} (hf : i.falls = true)
    (hp : ∀ l, i.placed? = some l → J l ⊆ I) : i.after J I ⊆ insert i I := by
  unfold Instruction.after
  split
  · exact (hp _ rfl).trans (Set.subset_insert _ _)
  · cases hf
  · cases hf
  · exact subset_rfl

/-- Wherever control is, something was run that the rest of the code can rely on. -/
theorem of_path (h : Flows code J ∅ code O) (hp : Course code trace n) :
    ∃ I : Set Instruction, I ⊆ {s | s ∈ trace} ∧ Flows code J I (code.drop n) O := by
  induction hp with
  | entry => exact ⟨∅, Set.empty_subset _, h⟩
  | @next trace n i _ hi hf ih =>
    obtain ⟨I, hI, hflow⟩ := ih
    rw [drop_of_getElem? hi] at hflow
    obtain ⟨-, hlead, hflow⟩ := hflow
    have hafter := after_subset hf fun l hl => hlead l (.inl hl)
    refine ⟨_, fun s hs => ?_, hflow⟩
    rcases hafter hs with rfl | hs
    · exact List.mem_cons_self
    · exact List.mem_cons_of_mem _ (hI hs)
  | @jump trace n k i l _ hi ht hk ih =>
    obtain ⟨I, hI, hflow⟩ := ih
    rw [drop_of_getElem? hi] at hflow
    have hl : J l ⊆ I := hflow.2.1 l (.inr ht)
    obtain ⟨I', htarget⟩ := h.drop k
    rw [drop_of_getElem? hk] at htarget ⊢
    -- In front of a label, what is relied on is what is said of the label.
    refine ⟨J l, fun s hs => List.mem_cons_of_mem _ (hI (hl hs)), nofun, ?_, htarget.2.2⟩
    rintro l' (h | h)
    · cases h
      exact subset_rfl
    · cases h

/-- On every path, what is read from the frame was written before, by the instruction that
writes it first in the code. -/
theorem initialised (h : Flows code J ∅ code O) (hp : Course code trace n) (hi : code[n]? = some i)
    (hm : m ∈ i.loads) (hf : m.InFrame) : ∃ s ∈ trace, firstStore? m code = some s := by
  obtain ⟨I, hI, hflow⟩ := h.of_path hp
  rw [drop_of_getElem? hi] at hflow
  obtain ⟨s, hs, hfirst⟩ := hflow.1 m hm hf
  exact ⟨s, hI hs, hfirst⟩

end Flows

end ScriptLang.Assembly
