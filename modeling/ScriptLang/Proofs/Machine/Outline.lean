import ScriptLang.Proofs.Machine.Run

/-!
# Code with a gap

A piece of code may hold instructions that the machine does not cover. Where it is left out,
the code around it is run all the same, and what the piece does as a whole is taken as given.
-/

namespace ScriptLang.Assembly

/-- Code in which `none` stands for a piece that is left out. -/
abbrev Outline := List (Option Instruction)

/-- What a piece of code does that is entered in the first state: it is left in the second
one, by a jump if there is a label, and else through its end. -/
abbrev Conduct := Machine → Option Label → Machine → Prop

namespace Outline

/-- The code in which the pieces that are left out are this one. -/
def fill (o : Outline) (piece : List Instruction) : List Instruction :=
  o.flatMap fun i => i.elim piece ([·])

/-- Where a jump leads. -/
def target (o : Outline) (l : Label) : Place :=
  match o.findIdx? (· = some (.label l)) with
  | some p => .inside p
  | none => .outside l

/-- Where control is behind the gap at a position. -/
def behind (o : Outline) (p : Nat) : Option Label → Place
  | none => .inside (p + 1)
  | some l => o.target l

/-- Control gets from the first configuration to the second, and goes through the gap so many
times on the way. -/
inductive Gets (L : Layout) (o : Outline) (conduct : Conduct) :
    Nat → Configuration → Configuration → Prop
  | refl (a : Configuration) : Gets L o conduct 0 a a
  | instruction {k p : Nat} {i : Instruction} {m : Machine} {b c : Configuration} :
    o[p]? = some (some i) → i.run L o.target p m = some b → Gets L o conduct k b c →
    Gets L o conduct k ⟨.inside p, m⟩ c
  | gap {k p : Nat} {l : Option Label} {m m' : Machine} {c : Configuration} :
    o[p]? = some none → conduct m l m' → Gets L o conduct k ⟨o.behind p l, m'⟩ c →
    Gets L o conduct (k + 1) ⟨.inside p, m⟩ c

/-- Control is not at an instruction. -/
def Rests (o : Outline) (a : Configuration) : Prop :=
  ∀ p i, a.place = .inside p → o[p]? ≠ some (some i)

/-- Control gets from the first configuration to the second through instructions only. -/
inductive Straight (L : Layout) (o : Outline) : Configuration → Configuration → Prop
  | refl (a : Configuration) : Straight L o a a
  | step {p : Nat} {i : Instruction} {m : Machine} {b c : Configuration} :
    o[p]? = some (some i) → i.run L o.target p m = some b → Straight L o b c →
    Straight L o ⟨.inside p, m⟩ c

variable {L : Layout} {o : Outline} {conduct : Conduct} {a b c : Configuration} {k p : Nat}
  {m m' : Machine} {i : Instruction} {l : Label}

theorem Straight.gets (h : Straight L o a b) (h' : Gets L o conduct k b c) :
    Gets L o conduct k a c := by
  induction h with
  | refl => exact h'
  | step hi hr _ ih => exact .instruction hi hr (ih h')

theorem Straight.trans (h : Straight L o a b) (h' : Straight L o b c) : Straight L o a c := by
  induction h with
  | refl => exact h'
  | step hi hr _ ih => exact .step hi hr (ih h')

/-- Instructions leave no choice: what rests further on is reached through where they lead. -/
theorem Straight.cut (h : Straight L o a b) (hc : o.Rests c) (h' : Gets L o conduct k a c) :
    Gets L o conduct k b c := by
  induction h with
  | refl => exact h'
  | step hi hr _ ih =>
    cases h' with
    | refl => exact absurd hi (hc _ _ rfl)
    | instruction hi' hr' h' =>
      cases hi.symm.trans hi'
      cases hr.symm.trans hr'
      exact ih h'
    | gap hgap => cases hi.symm.trans hgap

theorem Straight.gets_iff (h : Straight L o a b) (hc : o.Rests c) :
    Gets L o conduct k a c ↔ Gets L o conduct k b c := ⟨h.cut hc, h.gets⟩

/-- Control that rests elsewhere than at the gap is there for good. -/
theorem Gets.of_rests (h : Gets L o conduct k a c) (ha : o.Rests a)
    (hgap : ∀ p, a.place = .inside p → o[p]? ≠ some none) : k = 0 ∧ a = c := by
  cases h with
  | refl => exact ⟨rfl, rfl⟩
  | instruction hi => exact absurd hi (ha _ _ rfl)
  | gap hi => exact absurd hi (hgap _ rfl)

theorem rests_outside : o.Rests ⟨.outside l, m⟩ := by rintro p i ⟨⟩

theorem rests_gap (h : o[p]? = some none) : o.Rests ⟨.inside p, m⟩ := by
  rintro _ i ⟨⟩ hi
  cases h.symm.trans hi

theorem rests_end (h : o.length ≤ p) : o.Rests ⟨.inside p, m⟩ := by
  rintro _ i ⟨⟩ hi
  rw [List.getElem?_eq_none h] at hi
  cases hi

/-- From the gap, control gets as far as from where the piece may lead. -/
theorem gets_gap_iff (hp : o[p]? = some none) :
    Gets L o conduct k ⟨.inside p, m⟩ c ↔ k = 0 ∧ c = ⟨.inside p, m⟩ ∨
      ∃ n l m', k = n + 1 ∧ conduct m l m' ∧ Gets L o conduct n ⟨o.behind p l, m'⟩ c := by
  constructor
  · intro h
    cases h with
    | refl => exact .inl ⟨rfl, rfl⟩
    | instruction hi => cases hp.symm.trans hi
    | gap _ hconduct h => exact .inr ⟨_, _, _, rfl, hconduct, h⟩
  · rintro (⟨rfl, rfl⟩ | ⟨n, l, m', rfl, hconduct, h⟩)
    · exact .refl _
    · exact .gap hp hconduct h

theorem fill_map_some (c : List Instruction) (o : Outline) (piece : List Instruction) :
    fill (c.map some ++ o) piece = c ++ fill o piece := by
  induction c with
  | nil => rfl
  | cons i c ih => exact congrArg (i :: ·) ih

/-! ## Single steps -/

namespace Straight

variable {x : Condition}

theorem label (hi : o[p]? = some (some (.label l))) (h : Straight L o ⟨.inside (p + 1), m⟩ c) :
    Straight L o ⟨.inside p, m⟩ c := .step hi rfl h

theorem jump (hi : o[p]? = some (some (.jump l))) (h : Straight L o ⟨o.target l, m⟩ c) :
    Straight L o ⟨.inside p, m⟩ c := .step hi rfl h

theorem jumpIf {taken : Bool} (hi : o[p]? = some (some (.jumpIf x l)))
    (hx : m.flags.holds? x = some taken)
    (h : Straight L o ⟨if taken then o.target l else .inside (p + 1), m⟩ c) :
    Straight L o ⟨.inside p, m⟩ c := by
  refine .step hi ?_ h
  rw [Instruction.run, hx]
  rfl

theorem effect (hi : o[p]? = some (some i)) (he : m.effect L i = some m')
    (h : Straight L o ⟨.inside (p + 1), m'⟩ c) : Straight L o ⟨.inside p, m⟩ c := by
  refine .step hi ?_ h
  cases i with
  | label | jump | jumpIf => cases he
  | _ => exact Option.map_eq_some_iff.mpr ⟨m', he, rfl⟩

end Straight

end Outline

end ScriptLang.Assembly
