import Mathlib.Logic.Relation
import ScriptLang.Proofs.Machine.State

/-!
# Runs of a piece of code

A piece of code is run from its first instruction until control falls through to its
end or jumps to a label it does not place. Pieces whose labels differ run one after the
other when they are joined.
-/

namespace ScriptLang.Assembly

/-- Where control is: at a position of the code, or gone to a label outside. -/
inductive Place where
  | inside (position : Nat)
  | outside (label : Label)
  deriving DecidableEq

/-- The place behind `n` more instructions. -/
def Place.shift (n : Nat) : Place → Place
  | inside p => inside (n + p)
  | outside l => outside l

structure Configuration where
  place : Place
  machine : Machine

def Configuration.shift (n : Nat) (c : Configuration) : Configuration :=
  { c with place := c.place.shift n }

/-- Where a jump leads. -/
def target (code : List Instruction) (l : Label) : Place :=
  match code.findIdx? (· = .label l) with
  | some p => .inside p
  | none => .outside l

/-- One instruction at a position, in code where `lead` tells where jumps lead. -/
def Instruction.run (L : Layout) (lead : Label → Place) (position : Nat) (m : Machine) :
    Instruction → Option Configuration
  | .label _ => some ⟨.inside (position + 1), m⟩
  | .jump l => some ⟨lead l, m⟩
  | .jumpIf c l => (m.flags.holds? c).map fun b =>
    ⟨if b then lead l else .inside (position + 1), m⟩
  | i => (m.effect L i).map fun m => ⟨.inside (position + 1), m⟩

def step (L : Layout) (code : List Instruction) (c : Configuration) : Option Configuration :=
  match c.place with
  | .inside p => code[p]?.bind fun i => i.run L (target code) p c.machine
  | .outside _ => none

/-- Any number of steps. -/
def Runs (L : Layout) (code : List Instruction) : Configuration → Configuration → Prop :=
  Relation.ReflTransGen fun c d => step L code c = some d

/-- Control falls through to the end of the code. -/
def Finishes (L : Layout) (code : List Instruction) (m m' : Machine) : Prop :=
  Runs L code ⟨.inside 0, m⟩ ⟨.inside code.length, m'⟩

/-- Control jumps to a label outside of the code. -/
def Leaves (L : Layout) (code : List Instruction) (m : Machine) (l : Label) (m' : Machine) :
    Prop :=
  Runs L code ⟨.inside 0, m⟩ ⟨.outside l, m'⟩

variable {L : Layout} {code first second : List Instruction} {m m' m'' : Machine} {l : Label}
  {a b c : Configuration}

/-! ## Jumps -/

theorem target_append_left (h : .label l ∉ second ∨ .label l ∈ first) :
    target (first ++ second) l = target first l := by
  rw [target, target, List.findIdx?_append]
  cases hf : first.findIdx? (· = .label l) with
  | some p => rfl
  | none =>
    have hs : second.findIdx? (· = .label l) = none := by
      rw [List.findIdx?_eq_none_iff] at hf ⊢
      intro i hi
      rcases h with h | h
      · simpa using fun he : i = .label l => h (he ▸ hi)
      · simpa using hf _ h
    rw [hs]
    rfl

theorem target_append_right (h : .label l ∉ first) :
    target (first ++ second) l = (target second l).shift first.length := by
  have hf : first.findIdx? (· = .label l) = none := by
    rw [List.findIdx?_eq_none_iff]
    intro i hi
    simpa using fun he : i = .label l => h (he ▸ hi)
  rw [target, target, List.findIdx?_append, hf, Option.none_or]
  cases second.findIdx? (· = .label l) with
  | some p => exact congrArg Place.inside (Nat.add_comm ..)
  | none => rfl

theorem mem_of_target_inside {p : Nat} (h : target code l = .inside p) : .label l ∈ code := by
  unfold target at h
  split at h
  · next q hq =>
    obtain ⟨hlt, hp, -⟩ := List.findIdx?_eq_some_iff_getElem.mp hq
    rw [← of_decide_eq_true hp]
    exact List.getElem_mem hlt
  · cases h

theorem eq_of_target_outside {l' : Label} (h : target code l = .outside l') : l' = l := by
  unfold target at h
  split at h
  · cases h
  · exact (Place.outside.inj h).symm

/-! ## Code in front and behind -/

@[simp] theorem Place.shift_zero (p : Place) : p.shift 0 = p := by
  cases p with
  | inside p => exact congrArg inside (Nat.zero_add p)
  | outside l => rfl

@[simp] theorem Configuration.shift_zero (c : Configuration) : c.shift 0 = c := by
  rw [shift, Place.shift_zero]

/-- An instruction does the same elsewhere if the jump it takes does. -/
theorem Instruction.run_shift {lead lead' : Label → Place} {p : Nat} {i : Instruction} (n : Nat)
    (h : i.run L lead p m = some b)
    (hb : ∀ l, b.place = lead l → lead' l = (lead l).shift n) :
    i.run L lead' (n + p) m = some (b.shift n) := by
  cases i with
  | label l =>
    cases h
    rfl
  | jump l =>
    cases h
    rw [run, hb l rfl]
    rfl
  | jumpIf c l =>
    rw [run] at h ⊢
    cases hc : m.flags.holds? c with
    | none =>
      rw [hc] at h
      cases h
    | some taken =>
      rw [hc] at h
      cases h
      cases taken with
      | true =>
        rw [Option.map_some, if_pos rfl, hb l rfl]
        rfl
      | false => rfl
  | _ =>
    simp only [run] at h ⊢
    obtain ⟨m', hm', rfl⟩ := Option.map_eq_some_iff.mp h
    exact Option.map_eq_some_iff.mpr ⟨m', hm', rfl⟩

theorem step_eq_some : step L code a = some b ↔ ∃ p i, a.place = .inside p ∧
    code[p]? = some i ∧ i.run L (target code) p a.machine = some b := by
  unfold step
  cases a.place with
  | inside p => simp [Option.bind_eq_some_iff]
  | outside l => simp

/-- A run does not go on outside. -/
theorem Runs.eq_of_outside (h : Runs L code a b) (ha : a.place = .outside l) : a = b := by
  rcases Relation.ReflTransGen.cases_head h with h | ⟨c, hc, -⟩
  · exact h
  · obtain ⟨p, -, hp, -⟩ := step_eq_some.mp hc
    rw [ha] at hp
    cases hp

theorem step_append_left (h : step L first a = some b)
    (hb : ∀ l, b.place = .outside l → .label l ∉ second) :
    step L (first ++ second) a = some b := by
  obtain ⟨p, i, hp, hi, hr⟩ := step_eq_some.mp h
  refine step_eq_some.mpr ⟨p, i, hp, ?_, ?_⟩
  · rw [List.getElem?_append_left (List.getElem?_eq_some_iff.mp hi).1, hi]
  · rw [← Nat.zero_add p, ← b.shift_zero]
    refine Instruction.run_shift 0 hr fun l hl => ?_
    rw [Place.shift_zero]
    cases ht : target first l with
    | inside q => rw [target_append_left (.inr (mem_of_target_inside ht)), ht]
    | outside l' =>
      obtain rfl := eq_of_target_outside ht
      rw [target_append_left (.inl (hb _ (hl.trans ht))), ht]

theorem step_append_right (h : step L second a = some b)
    (hd : ∀ l, .label l ∈ second → .label l ∉ first)
    (hb : ∀ l, b.place = .outside l → .label l ∉ first) :
    step L (first ++ second) (a.shift first.length) = some (b.shift first.length) := by
  obtain ⟨p, i, hp, hi, hr⟩ := step_eq_some.mp h
  refine step_eq_some.mpr ⟨first.length + p, i, congrArg (Place.shift _) hp, ?_, ?_⟩
  · rw [List.getElem?_append_right (Nat.le_add_right ..), Nat.add_sub_cancel_left, hi]
  · refine Instruction.run_shift _ hr fun l hl => target_append_right ?_
    cases ht : target second l with
    | inside q => exact hd l (mem_of_target_inside ht)
    | outside l' =>
      obtain rfl := eq_of_target_outside ht
      exact hb _ (hl.trans ht)

/-- A run goes the same way with more code behind, unless it ends at a label there. -/
theorem Runs.append_left (h : Runs L first a b)
    (hb : ∀ l, b.place = .outside l → .label l ∉ second) : Runs L (first ++ second) a b := by
  induction h using Relation.ReflTransGen.head_induction_on with
  | refl => exact .refl
  | head hstep hrest ih =>
    refine .head (step_append_left hstep fun l hl => ?_) ih
    obtain rfl := Runs.eq_of_outside hrest hl
    exact hb l hl

/-- A run goes the same way with more code in front that has other labels. -/
theorem Runs.append_right (h : Runs L second a b)
    (hd : ∀ l, .label l ∈ second → .label l ∉ first)
    (hb : ∀ l, b.place = .outside l → .label l ∉ first) :
    Runs L (first ++ second) (a.shift first.length) (b.shift first.length) := by
  induction h using Relation.ReflTransGen.head_induction_on with
  | refl => exact .refl
  | head hstep hrest ih =>
    refine .head (step_append_right hstep hd fun l hl => ?_) ih
    obtain rfl := Runs.eq_of_outside hrest hl
    exact hb l hl

theorem Finishes.append (h : Finishes L first m m') (h' : Finishes L second m' m'')
    (hd : ∀ l, .label l ∈ second → .label l ∉ first) : Finishes L (first ++ second) m m'' := by
  have hrest := Runs.append_right h' hd (by rintro l ⟨⟩)
  rw [Configuration.shift, Configuration.shift] at hrest
  unfold Finishes
  rw [List.length_append]
  exact (Runs.append_left h (by rintro l ⟨⟩)).trans hrest

theorem Finishes.leaves (h : Finishes L first m m') (h' : Leaves L second m' l m'')
    (hd : ∀ l, .label l ∈ second → .label l ∉ first) (hl : .label l ∉ first) :
    Leaves L (first ++ second) m l m'' := by
  refine (Runs.append_left h (by rintro l ⟨⟩)).trans ?_
  exact Runs.append_right h' hd (by rintro l ⟨⟩; exact hl)

theorem Leaves.append (h : Leaves L first m l m') (hl : .label l ∉ second) :
    Leaves L (first ++ second) m l m' :=
  Runs.append_left h (by rintro l ⟨⟩; exact hl)

/-! ## Single steps -/

namespace Runs

variable {d : Configuration} {p : Nat} {i : Instruction} {k : Condition}

theorem head (hi : code[p]? = some i) (hr : i.run L (target code) p m = some c)
    (h : Runs L code c d) : Runs L code ⟨.inside p, m⟩ d :=
  Relation.ReflTransGen.head (step_eq_some.mpr ⟨p, i, rfl, hi, hr⟩) h

theorem label (hi : code[p]? = some (.label l)) (h : Runs L code ⟨.inside (p + 1), m⟩ d) :
    Runs L code ⟨.inside p, m⟩ d := head hi rfl h

theorem jump (hi : code[p]? = some (.jump l)) (h : Runs L code ⟨target code l, m⟩ d) :
    Runs L code ⟨.inside p, m⟩ d := head hi rfl h

theorem jumpIf {b : Bool} (hi : code[p]? = some (.jumpIf k l)) (hk : m.flags.holds? k = some b)
    (h : Runs L code ⟨if b then target code l else .inside (p + 1), m⟩ d) :
    Runs L code ⟨.inside p, m⟩ d := by
  refine head hi ?_ h
  rw [Instruction.run, hk]
  rfl

theorem effect (hi : code[p]? = some i) (he : m.effect L i = some m')
    (h : Runs L code ⟨.inside (p + 1), m'⟩ d) : Runs L code ⟨.inside p, m⟩ d := by
  refine head hi ?_ h
  cases i with
  | label | jump | jumpIf => cases he
  | _ => exact Option.map_eq_some_iff.mpr ⟨m', he, rfl⟩

end Runs

/-! ## Ends of runs -/

/-- All runs that end, end the same way. -/
theorem Runs.unique (hb : Runs L code a b) (hc : Runs L code a c)
    (hb' : step L code b = none) (hc' : step L code c = none) : b = c := by
  have hu : Relator.RightUnique fun c d => step L code c = some d := fun _ _ _ h h' =>
    Option.some.inj (h.symm.trans h')
  rcases Relation.ReflTransGen.total_of_right_unique hu hb hc with h | h
  · rcases Relation.ReflTransGen.cases_head h with h | ⟨d, hd, -⟩
    · exact h
    · rw [hb'] at hd
      cases hd
  · rcases Relation.ReflTransGen.cases_head h with h | ⟨d, hd, -⟩
    · exact h.symm
    · rw [hc'] at hd
      cases hd

theorem step_end : step L code ⟨.inside code.length, m⟩ = none := by
  simp [step]

theorem Finishes.not_leaves (h : Finishes L code m m') : ¬ Leaves L code m l m'' := by
  intro h'
  cases Runs.unique h h' step_end rfl

theorem Leaves.unique {l' : Label} (h : Leaves L code m l m') (h' : Leaves L code m l' m'') :
    l' = l ∧ m' = m'' := by
  cases Runs.unique h h' rfl rfl
  exact ⟨rfl, rfl⟩

/-! ## Code without jumps -/

/-- The state behind instructions that do not jump. -/
def Machine.effects (L : Layout) : List Instruction → Machine → Option Machine
  | [], m => some m
  | i :: rest, m => (m.effect L i).bind (effects L rest)

theorem Finishes.of_effect {i : Instruction} (h : m.effect L i = some m') :
    Finishes L [i] m m' :=
  Runs.effect rfl h .refl

theorem Finishes.of_effects (h : m.effects L code = some m') : Finishes L code m m' := by
  induction code generalizing m with
  | nil =>
    cases h
    exact .refl
  | cons i rest ih =>
    obtain ⟨m₁, hi, hrest⟩ := Option.bind_eq_some_iff.mp h
    refine (Finishes.of_effect hi).append (ih hrest) fun l _ hl => ?_
    cases List.mem_singleton.mp hl
    cases hi

theorem label_notMem_of_effects (h : m.effects L code = some m') : .label l ∉ code := by
  induction code generalizing m with
  | nil => exact List.not_mem_nil
  | cons i rest ih =>
    obtain ⟨m₁, hi, hrest⟩ := Option.bind_eq_some_iff.mp h
    intro hl
    rcases List.mem_cons.mp hl with rfl | hl
    · cases hi
    · exact ih hrest hl

end ScriptLang.Assembly
