import ScriptLang.Assembly.Listing

/-!
# The texts of labels

Labels that compiled programs use are told apart by their texts: how a text starts tells
the family of a label, and what follows its number or its name.
-/

namespace ScriptLang.Assembly

/-- Labels whose texts start alike. -/
inductive Family where
  | division | otherwise | endIf | whileLoop | doWhile | forLoop | topLevel
  | mainEnd | functionEnd | trap | string | float | format | truth | cell | main | function
  deriving DecidableEq

namespace Family

def all : List Family :=
  [division, otherwise, endIf, whileLoop, doWhile, forLoop, topLevel, mainEnd, functionEnd, trap,
    string, float, format, truth, cell, main, function]

/-- How the texts start. -/
def lead : Family → String
  | division => ".Ldiv_"
  | otherwise => ".Lelse_"
  | endIf => ".Lendif_"
  | whileLoop => ".Lwhile_"
  | doWhile => ".Ldo_"
  | forLoop => ".Lfor_"
  | topLevel => ".Ltop_"
  | mainEnd => ".Lmain"
  | functionEnd => ".Lkt_"
  | trap => ".Lrt_"
  | string => ".LS"
  | float => ".LF"
  | format => ".Lfmt_"
  | truth => ".Lstr_"
  | cell => "glob_"
  | main => "main"
  | function => "kt_"

theorem mem_all (f : Family) : f ∈ all := by cases f <;> decide

/-- No family's texts start as those of another. -/
theorem eq_of_lead_begins {f g : Family} (h : f.lead.toList <+: g.lead.toList) : f = g := by
  have hall : ∀ f ∈ all, ∀ g ∈ all, f.lead.toList <+: g.lead.toList → f = g := by
    decide +kernel
  exact hall f f.mem_all g g.mem_all h

/-- A text that starts as those of two families does so of one. -/
theorem eq_of_begins {f g : Family} {t : List Char} (h : f.lead.toList <+: t)
    (h' : g.lead.toList <+: t) : f = g := by
  rcases List.prefix_or_prefix_of_prefix h h' with h | h
  · exact eq_of_lead_begins h
  · exact (eq_of_lead_begins h).symm

end Family

namespace Mark

def family : Mark → Family
  | divide | divideEnd => .division
  | otherwise => .otherwise
  | endIf => .endIf
  | whileStart | whileEnd => .whileLoop
  | doStart | doCondition | doEnd => .doWhile
  | forStart | forNext | forEnd => .forLoop
  | topEnd => .topLevel

/-- What follows the number of a label. -/
def tail : Mark → String
  | divide | otherwise | endIf => ""
  | whileStart | doStart | forStart => "_start"
  | doCondition => "_cond"
  | forNext => "_next"
  | divideEnd | whileEnd | doEnd | forEnd | topEnd => "_end"

def all : List Mark :=
  [divide, divideEnd, otherwise, endIf, whileStart, whileEnd, doStart, doCondition, doEnd,
    forStart, forNext, forEnd, topEnd]

theorem mem_all (m : Mark) : m ∈ all := by cases m <;> decide

theorem eq_of_family {m m' : Mark} (hf : m.family = m'.family)
    (ht : m.tail.toList = m'.tail.toList) : m = m' := by
  have hall : ∀ m ∈ all, ∀ m' ∈ all, m.family = m'.family → m.tail.toList = m'.tail.toList →
      m = m' := by decide +kernel
  exact hall m m.mem_all m' m'.mem_all hf ht

theorem label_eq (m : Mark) (n : Nat) : m.label n = m.family.lead ++ (n.repr ++ m.tail) := by
  cases m with
  | divide | otherwise | endIf =>
    exact (congrArg (String.append _) String.append_empty).symm
  | _ => exact String.append_assoc ..

theorem toList_label (m : Mark) (n : Nat) :
    (m.label n).toList = m.family.lead.toList ++ (Nat.toDigits 10 n ++ m.tail.toList) := by
  rw [label_eq, String.toList_append, String.toList_append, Nat.toList_repr]

/-- No digit follows the number. -/
theorem takeWhile_digits (m : Mark) (n : Nat) :
    (Nat.toDigits 10 n ++ m.tail.toList).takeWhile Char.isDigit = Nat.toDigits 10 n := by
  have hd : ∀ c ∈ Nat.toDigits 10 n, c.isDigit := fun _ =>
    Nat.isDigit_of_mem_toDigits (by decide) (by decide)
  have hall : ∀ m ∈ all, m.tail.toList.takeWhile Char.isDigit = [] := by decide +kernel
  rw [List.takeWhile_append_of_pos hd, hall m m.mem_all, List.append_nil]

end Mark

theorem repr_inj {m n : Nat} (h : Nat.toDigits 10 m = Nat.toDigits 10 n) : m = n := by
  have h := congrArg (Nat.ofDigitChars 10 · 0) h
  simpa [Nat.ofDigitChars_ten_toDigits] using h

namespace Label

/-- Labels that listings may have: functions are called `main`, or are marked as the
program's own. -/
def Listed : Label → Prop
  | symbol s | epilogue s => s = "main" ∨ "kt_".toList <+: s.toList
  | named _ => False
  | _ => True

def family : Label → Family
  | numbered m _ => m.family
  | epilogue s => if s = "main" then .mainEnd else .functionEnd
  | trap _ | trapMessage _ => .trap
  | string _ => .string
  | float _ => .float
  | format .. | newline => .format
  | truth _ => .truth
  | cell _ => .cell
  | symbol s | named s => if s = "main" then .main else .function

/-- The labels of every listing. -/
def fixed : List Label :=
  Trap.all.map trap ++ Trap.all.map trapMessage ++
    Format.all.flatMap (fun f => [format f false, format f true]) ++
    [newline, truth true, truth false]

theorem lead_begins {l : Label} (h : l.Listed) : l.family.lead.toList <+: l.text.toList := by
  have hfixed : ∀ l ∈ fixed, l.family.lead.toList <+: l.text.toList := by decide +kernel
  have happend : ∀ a b : String, a.toList <+: (a ++ b).toList := fun a b => by
    rw [String.toList_append]
    exact List.prefix_append _ _
  cases l with
  | numbered m n =>
    change _ <+: (m.label n).toList
    rw [m.label_eq]
    exact happend _ _
  | epilogue s =>
    change (if s = "main" then Family.mainEnd else .functionEnd).lead.toList <+:
      (".L" ++ s ++ "_epilogue").toList
    rw [String.append_assoc]
    split
    · next hs =>
      rw [hs]
      exact happend ".Lmain" "_epilogue"
    · next hs =>
      have hs := h.resolve_left hs
      rw [String.toList_append, String.toList_append]
      exact (List.prefix_append_right_inj ".L".toList).mpr (hs.trans (List.prefix_append _ _))
  | trap t => exact hfixed _ (by cases t <;> decide)
  | trapMessage t => exact hfixed _ (by cases t <;> decide)
  | string i => exact happend _ _
  | float i => exact happend _ _
  | format f b => exact hfixed _ (by cases f <;> cases b <;> decide)
  | newline => exact hfixed _ (by decide)
  | truth b => exact hfixed _ (by cases b <;> decide)
  | cell name => exact happend _ _
  | symbol s =>
    change (if s = "main" then Family.main else .function).lead.toList <+: s.toList
    split
    · next hs =>
      rw [hs]
      exact List.prefix_rfl
    · next hs => exact h.resolve_left hs
  | named s => cases h

/-- Which constructor a label has; the labels of every listing count as one. -/
def sort : Label → Nat
  | numbered .. => 1
  | epilogue _ => 2
  | string _ => 3
  | float _ => 4
  | cell _ => 5
  | symbol _ => 6
  | named _ => 7
  | _ => 0

theorem sort_eq_of_family {l l' : Label} (h : l.Listed) (h' : l'.Listed)
    (hf : l.family = l'.family) : l.sort = l'.sort := by
  let sortOf : Family → Nat
    | .division | .otherwise | .endIf | .whileLoop | .doWhile | .forLoop | .topLevel => 1
    | .mainEnd | .functionEnd => 2
    | .string => 3
    | .float => 4
    | .cell => 5
    | .main | .function => 6
    | .trap | .format | .truth => 0
  have hsort : ∀ l : Label, l.Listed → sortOf l.family = l.sort := by
    intro l h
    cases l with
    | numbered m n => cases m <;> rfl
    | epilogue s | symbol s =>
      unfold family
      dsimp only
      split <;> rfl
    | named s => cases h
    | _ => rfl
  rw [← hsort l h, ← hsort l' h', hf]

/-- Labels of a listing are told apart by their texts. -/
theorem eq_of_text {l l' : Label} (h : l.Listed) (h' : l'.Listed) (ht : l.text = l'.text) :
    l = l' := by
  have hfamily : l.family = l'.family :=
    Family.eq_of_begins (lead_begins h) (by rw [ht]; exact lead_begins h')
  have hsort := sort_eq_of_family h h' hfamily
  have hfixed : ∀ l ∈ fixed, ∀ l' ∈ fixed, l.text = l'.text → l = l' := by decide +kernel
  have hmem : ∀ {l : Label}, l.sort = 0 → l ∈ fixed := by
    intro l hl
    cases l with
    | trap t | trapMessage t => cases t <;> decide
    | format f b => cases f <;> cases b <;> decide
    | newline => decide
    | truth b => cases b <;> decide
    | _ => cases hl
  have happend : ∀ {a b c : String}, a ++ b = a ++ c → b = c := fun h =>
    String.toList_injective (List.append_cancel_left (by
      rw [← String.toList_append, ← String.toList_append, h]))
  have hnumber : ∀ {m n : Nat}, m.repr = n.repr → m = n := fun h =>
    repr_inj (by rw [← Nat.toList_repr, ← Nat.toList_repr, h])
  by_cases hzero : l.sort = 0
  · exact hfixed l (hmem hzero) l' (hmem (hsort.symm.trans hzero)) ht
  cases l with
  | numbered m n =>
    cases l' with
    | numbered m' n' =>
      have hl := congrArg String.toList ht
      change (m.label n).toList = (m'.label n').toList at hl
      have hfam : m.family = m'.family := hfamily
      rw [m.toList_label, m'.toList_label, hfam] at hl
      have hl := List.append_cancel_left hl
      have hd := congrArg (List.takeWhile Char.isDigit) hl
      rw [m.takeWhile_digits, m'.takeWhile_digits] at hd
      rw [hd] at hl
      rw [Mark.eq_of_family hfam (List.append_cancel_left hl), repr_inj hd]
    | _ => cases hsort
  | epilogue s =>
    cases l' with
    | epilogue s' =>
      have ht : ".L" ++ s ++ "_epilogue" = ".L" ++ s' ++ "_epilogue" := ht
      rw [String.append_assoc, String.append_assoc] at ht
      have ht := congrArg String.toList (happend ht)
      rw [String.toList_append, String.toList_append] at ht
      rw [String.toList_injective (List.append_cancel_right ht)]
    | _ => cases hsort
  | string i =>
    cases l' with
    | string j => rw [hnumber (happend ht)]
    | _ => cases hsort
  | float i =>
    cases l' with
    | float j => rw [hnumber (happend ht)]
    | _ => cases hsort
  | cell name =>
    cases l' with
    | cell name' => exact congrArg cell (happend ht)
    | _ => cases hsort
  | symbol s =>
    cases l' with
    | symbol s' => exact congrArg _ ht
    | _ => cases hsort
  | named s => cases h
  | _ => exact absurd rfl hzero

/-- Labels of a listing that differ have texts that differ. -/
theorem nodup_text {ls : List Label} (h : ls.Nodup) (hl : ∀ l ∈ ls, l.Listed) :
    (ls.map text).Nodup :=
  List.Pairwise.map _ (fun _ _ h => h) (h.imp_of_mem fun ha hb hne ht =>
    hne (eq_of_text (hl _ ha) (hl _ hb) ht))

end Label

end ScriptLang.Assembly
