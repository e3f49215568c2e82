import ScriptLang.Proofs.Token.Pattern

/-!
# The longest match

A pattern matches the longest front of a text among those it spells. Of two patterns that
match at one place, the one that is tried earlier matches more, so the first match is the
longest one: in any other order, the longest match would be the same.
-/

namespace ScriptLang.Lexeme

variable {cs rest lexeme : List Char} {n m : Nat}

/-! ## Runs -/

section

variable {q : Char → Bool}

theorem all_takeWhile (q : Char → Bool) (cs : List Char) : ∀ c ∈ cs.takeWhile q, q c = true :=
  List.all_eq_true.mp List.all_takeWhile

theorem length_le_run (h : ∀ c ∈ lexeme, q c = true) : lexeme.length ≤ run q (lexeme ++ rest) := by
  rw [run, List.takeWhile_append_of_pos h, List.length_append]
  exact Nat.le_add_right _ _

theorem run_append_of_head (h : ∀ c ∈ lexeme, q c = true) (hrest : ∀ c ∈ rest.head?, q c = false) :
    run q (lexeme ++ rest) = lexeme.length := by
  have hnone : rest.takeWhile q = [] := by
    cases rest with
    | nil => rfl
    | cons c rest => exact List.takeWhile_cons_of_neg (by simpa using hrest c rfl)
  rw [run, List.takeWhile_append_of_pos h, hnone, List.append_nil]

end

/-! ## What patterns spell -/

/-- Digits, at least one. -/
def Digits (cs : List Char) : Prop := cs ≠ [] ∧ ∀ c ∈ cs, c.isDigit = true

/-- A point and digits, or nothing. -/
def Fraction (cs : List Char) : Prop := cs = [] ∨ ∃ digits, cs = '.' :: digits ∧ Digits digits

/-- The suffix of a type, or nothing. -/
def Suffix (cs : List Char) : Prop := cs = [] ∨ cs = ['f'] ∨ cs = ['F']

theorem digits_takeWhile (h : run Char.isDigit cs ≠ 0) : Digits (cs.takeWhile Char.isDigit) :=
  ⟨fun hnil => h (by rw [run, hnil]; rfl), all_takeWhile _ cs⟩

theorem fraction_take (cs : List Char) : Fraction (cs.take (fractionLength cs)) := by
  unfold fractionLength
  split
  · next cs =>
    split
    · exact .inl rfl
    · next hdigits =>
      refine .inr ⟨_, ?_, digits_takeWhile hdigits⟩
      rw [Nat.add_comm, List.take_succ_cons, take_run]
  · exact .inl rfl

theorem suffix_take (cs : List Char) : Suffix (cs.take (suffixLength cs)) := by
  unfold suffixLength
  split
  · exact .inr (.inl rfl)
  · exact .inr (.inr rfl)
  · exact .inl rfl

theorem length_le_suffixLength (h : Suffix lexeme) (rest : List Char) :
    lexeme.length ≤ suffixLength (lexeme ++ rest) := by
  rcases h with rfl | rfl | rfl
  · exact Nat.zero_le _
  · exact Nat.le_refl 1
  · exact Nat.le_refl 1

/-- A suffix is no digit. -/
theorem Suffix.head (h : Suffix lexeme) (hne : lexeme ≠ []) :
    ∀ c ∈ (lexeme ++ rest).head?, c.isDigit = false := by
  rcases h with rfl | rfl | rfl
  · exact absurd rfl hne
  · rintro c ⟨⟩
    rfl
  · rintro c ⟨⟩
    rfl

/-- A fraction and a suffix are taken whole: digits behind the point do not run into the
suffix. -/
theorem length_le_fractionLength {suffix : List Char} (hf : Fraction lexeme) (hs : Suffix suffix)
    (rest : List Char) :
    lexeme.length + suffix.length ≤ fractionLength (lexeme ++ (suffix ++ rest)) +
      suffixLength ((lexeme ++ (suffix ++ rest)).drop
        (fractionLength (lexeme ++ (suffix ++ rest)))) := by
  rcases hf with rfl | ⟨digits, rfl, hne, hdigits⟩
  · have hzero : suffix ≠ [] → fractionLength (suffix ++ rest) = 0 := by
      intro hne
      rcases hs with rfl | rfl | rfl
      · exact absurd rfl hne
      · rfl
      · rfl
    by_cases hempty : suffix = []
    · rw [hempty]
      exact Nat.zero_le _
    · rw [List.nil_append, hzero hempty, List.drop_zero]
      simpa using length_le_suffixLength hs rest
  · have hpos := List.length_pos_iff.mpr hne
    have hle : digits.length ≤ run Char.isDigit (digits ++ (suffix ++ rest)) :=
      length_le_run hdigits
    have hfraction : fractionLength ('.' :: digits ++ (suffix ++ rest)) =
        1 + run Char.isDigit (digits ++ (suffix ++ rest)) := by
      rw [List.cons_append, fractionLength, if_neg (by omega)]
    by_cases hempty : suffix = []
    · subst hempty
      rw [hfraction, List.length_cons, List.length_nil]
      omega
    · rw [hfraction, List.length_cons, run_append_of_head hdigits (hs.head hempty), Nat.add_comm 1,
        List.cons_append, List.drop_succ_cons, List.drop_left]
      have hsuffix := length_le_suffixLength hs rest
      omega

namespace Pattern

/-- The texts that a pattern is there for, each as a whole. -/
def Spells : Pattern → List Char → Prop
  | .blank, cs => cs ≠ [] ∧ ∀ c ∈ cs, Text.isBlank c = true
  | .lineComment, cs => ∃ body, cs = '/' :: '/' :: body ∧ '\n' ∉ body
  | .blockComment, cs => ∃ comment, cs = '/' :: '*' :: comment ∧ EndsComment comment
  | .word, cs => ∃ c body, cs = c :: body ∧ startsWord c = true ∧
      ∀ d ∈ body, continuesWord d = true
  | .number, cs => ∃ whole fraction suffix, cs = whole ++ (fraction ++ suffix) ∧
      Digits whole ∧ Fraction fraction ∧ Suffix suffix
  | .text, cs => ∃ body, cs = '"' :: body ∧ EndsString body
  | .sign s _, cs => cs = s

variable {p q : Pattern}

theorem spells_number (h : 0 < run Char.isDigit cs) :
    Spells .number (cs.take (numberLength cs)) := by
  refine ⟨_, _, _, ?_, digits_takeWhile (Nat.ne_of_gt h),
    fraction_take (cs.drop (run Char.isDigit cs)),
    suffix_take (cs.drop (run Char.isDigit cs + fractionLength (cs.drop (run Char.isDigit cs))))⟩
  rw [numberLength, List.take_add, List.take_add, take_run, List.append_assoc]

/-- What a pattern matches, it spells. -/
theorem spells_take (h : p.length? cs = some n) : p.Spells (cs.take n) := by
  have hm := length?_eq_some.mp h
  cases p with
  | blank =>
    obtain ⟨rfl, hpos⟩ := hm
    rw [take_run]
    exact ⟨List.length_pos_iff.mp hpos, all_takeWhile _ cs⟩
  | lineComment =>
    obtain ⟨body, rfl, rfl⟩ := hm
    refine ⟨body.takeWhile (· ≠ '\n'), ?_, fun hin => ?_⟩
    · rw [Nat.add_comm, List.take_succ_cons, List.take_succ_cons, take_run]
    · simpa using all_takeWhile _ body _ hin
  | blockComment =>
    obtain ⟨body, m, rfl, hend, rfl⟩ := hm
    obtain ⟨comment, rest, rfl, rfl, hcomment⟩ := (delimits_commentEnd? _ _).mp hend
    refine ⟨comment, ?_, hcomment⟩
    rw [Nat.add_comm, List.take_succ_cons, List.take_succ_cons, List.take_left]
  | word =>
    obtain ⟨c, body, rfl, hc, rfl⟩ := hm
    refine ⟨c, body.takeWhile continuesWord, ?_, hc, all_takeWhile _ body⟩
    rw [Nat.add_comm, List.take_succ_cons, take_run]
  | number =>
    obtain ⟨rfl, hpos⟩ := hm
    exact spells_number hpos
  | text =>
    obtain ⟨body, m, rfl, hend, rfl⟩ := hm
    obtain ⟨text, rest, rfl, rfl, htext⟩ := (delimits_quoteEnd? _ _).mp hend
    refine ⟨text, ?_, htext⟩
    rw [Nat.add_comm, List.take_succ_cons, List.take_left]
  | sign s =>
    obtain ⟨hs, rfl⟩ := hm
    exact (List.prefix_iff_eq_take.mp hs).symm

theorem length_le_numberLength (h : Spells .number lexeme) (rest : List Char) :
    lexeme.length ≤ numberLength (lexeme ++ rest) := by
  obtain ⟨whole, fraction, suffix, rfl, ⟨-, hwhole⟩, hf, hs⟩ := h
  by_cases hempty : fraction ++ suffix = []
  · rw [hempty, List.append_nil]
    exact Nat.le_trans (length_le_run hwhole) (run_le_numberLength _)
  · have hhead : ∀ c ∈ (fraction ++ suffix ++ rest).head?, c.isDigit = false := by
      rcases hf with rfl | ⟨digits, rfl, -⟩
      · exact hs.head hempty
      · rintro c ⟨⟩
        rfl
    have hrun := run_append_of_head hwhole hhead
    have hle := length_le_fractionLength hf hs rest
    rw [numberLength, List.append_assoc, hrun, List.drop_left, ← List.drop_drop, List.drop_left,
      List.append_assoc]
    simp only [List.length_append]
    omega

/-- What a pattern spells, it matches, perhaps further. -/
theorem length?_of_spells (h : p.Spells lexeme) (rest : List Char) :
    ∃ n, p.length? (lexeme ++ rest) = some n ∧ lexeme.length ≤ n := by
  suffices ∃ n, p.Matches (lexeme ++ rest) n ∧ lexeme.length ≤ n from
    this.imp fun n hn => ⟨length?_eq_some.mpr hn.1, hn.2⟩
  cases p with
  | blank =>
    obtain ⟨hne, hblank⟩ := h
    have hle : lexeme.length ≤ run Text.isBlank (lexeme ++ rest) := length_le_run hblank
    exact ⟨_, ⟨rfl, Nat.lt_of_lt_of_le (List.length_pos_iff.mpr hne) hle⟩, hle⟩
  | lineComment =>
    obtain ⟨body, rfl, hbody⟩ := h
    have hle : body.length ≤ run (· ≠ '\n') (body ++ rest) :=
      length_le_run fun c hc => decide_eq_true fun heq => hbody (heq ▸ hc)
    refine ⟨_, ⟨body ++ rest, rfl, rfl⟩, ?_⟩
    rw [List.length_cons, List.length_cons]
    omega
  | blockComment =>
    obtain ⟨comment, rfl, hcomment⟩ := h
    have hend := (delimits_commentEnd? (comment ++ rest) _).mpr ⟨_, _, rfl, rfl, hcomment⟩
    exact ⟨_, ⟨comment ++ rest, _, rfl, hend, rfl⟩, by rw [List.length_cons, List.length_cons]; omega⟩
  | word =>
    obtain ⟨c, body, rfl, hc, hbody⟩ := h
    have hle : body.length ≤ run continuesWord (body ++ rest) := length_le_run hbody
    refine ⟨_, ⟨c, body ++ rest, rfl, hc, rfl⟩, ?_⟩
    rw [List.length_cons]
    omega
  | number =>
    have hle := length_le_numberLength h rest
    obtain ⟨whole, fraction, suffix, rfl, ⟨hne, hwhole⟩, -, -⟩ := h
    rw [List.append_assoc] at hle ⊢
    exact ⟨_, ⟨rfl, Nat.lt_of_lt_of_le (List.length_pos_iff.mpr hne) (length_le_run hwhole)⟩, hle⟩
  | text =>
    obtain ⟨body, rfl, hbody⟩ := h
    have hend := (delimits_quoteEnd? (body ++ rest) _).mpr ⟨_, _, rfl, rfl, hbody⟩
    exact ⟨_, ⟨body ++ rest, _, rfl, hend, rfl⟩, by rw [List.length_cons]; omega⟩
  | sign s =>
    obtain rfl : lexeme = s := h
    exact ⟨_, ⟨List.prefix_append _ rest, rfl⟩, Nat.le_refl _⟩

/-! ## How matches begin -/

/-- The characters that one kind of match begins with. -/
inductive Family where
  | blank | letter | digit | mark
  deriving DecidableEq

/-- The kind of match that a character begins. -/
def Family.ofChar (c : Char) : Family :=
  if Text.isBlank c then .blank
  else if startsWord c then .letter
  else if c.isDigit then .digit
  else .mark

def family : Pattern → Family
  | .blank => .blank
  | .word => .letter
  | .number => .digit
  | _ => .mark

/-- What a match begins with, as far as the pattern fixes it. -/
def front : Pattern → List Char
  | .lineComment => ['/', '/']
  | .blockComment => ['/', '*']
  | .text => ['"']
  | .sign s _ => s
  | _ => []

/-- Whether the front is the whole match. -/
def isSign : Pattern → Bool
  | .sign _ _ => true
  | _ => false

theorem length?_front (h : p.length? cs = some n) : p.front <+: cs ∧ p.front.length ≤ n := by
  have hm := length?_eq_some.mp h
  cases p with
  | blank | word | number => exact ⟨List.nil_prefix, Nat.zero_le _⟩
  | lineComment =>
    obtain ⟨body, rfl, rfl⟩ := hm
    exact ⟨⟨body, rfl⟩, Nat.le_add_right 2 _⟩
  | blockComment =>
    obtain ⟨body, m, rfl, -, rfl⟩ := hm
    exact ⟨⟨body, rfl⟩, Nat.le_add_right 2 _⟩
  | text =>
    obtain ⟨body, m, rfl, -, rfl⟩ := hm
    exact ⟨⟨body, rfl⟩, Nat.le_add_right 1 _⟩
  | sign s =>
    obtain ⟨hs, rfl⟩ := hm
    exact ⟨hs, Nat.le_refl _⟩

theorem length?_of_isSign (hp : p.isSign = true) (h : p.length? cs = some n) :
    n = p.front.length := by
  cases p with
  | sign s => exact (length?_eq_some.mp h).2
  | _ => cases hp

theorem isAlpha_bounds {c : Char} (h : c.isAlpha = true) :
    65 ≤ c.toNat ∧ c.toNat ≤ 90 ∨ 97 ≤ c.toNat ∧ c.toNat ≤ 122 := by
  have h : (c.isUpper || c.isLower) = true := h
  refine ((Bool.or_eq_true _ _).mp h).imp (fun hu => ?_) fun hl => ?_
  · have hu : 65 ≤ c.val ∧ c.val ≤ 90 := of_decide_eq_true hu
    exact hu.imp UInt32.le_iff_toNat_le.mp UInt32.le_iff_toNat_le.mp
  · have hl : 97 ≤ c.val ∧ c.val ≤ 122 :=
      ((Bool.and_eq_true _ _).mp hl).imp of_decide_eq_true of_decide_eq_true
    exact hl.imp UInt32.le_iff_toNat_le.mp UInt32.le_iff_toNat_le.mp

theorem isDigit_bounds {c : Char} (h : c.isDigit = true) : 48 ≤ c.toNat ∧ c.toNat ≤ 57 := by
  simp only [Char.isDigit, Bool.and_eq_true, decide_eq_true_eq, ge_iff_le,
    UInt32.le_iff_toNat_le] at h
  exact h

theorem Family.ofChar_of_startsWord {c : Char} (h : startsWord c = true) :
    Family.ofChar c = .letter := by
  have hblank : Text.isBlank c = false := by
    rw [startsWord, Bool.or_eq_true, decide_eq_true_eq] at h
    rcases h with h | rfl
    · have hn := isAlpha_bounds h
      simp [Text.isBlank]
      omega
    · rfl
  rw [Family.ofChar, hblank, h]
  rfl

theorem Family.ofChar_of_isDigit {c : Char} (h : c.isDigit = true) :
    Family.ofChar c = .digit := by
  have hn := isDigit_bounds h
  have hblank : Text.isBlank c = false := by
    simp [Text.isBlank]
    omega
  have hword : startsWord c = false := by
    refine Bool.eq_false_iff.mpr fun hc => ?_
    rw [startsWord, Bool.or_eq_true, decide_eq_true_eq] at hc
    rcases hc with hc | rfl
    · have hm := isAlpha_bounds hc
      omega
    · cases h
  rw [Family.ofChar, hblank, hword, h]
  rfl

/-- What a pattern fixes of the beginning of a match begins with no blank, letter or digit. -/
theorem ofChar_front : ∀ p ∈ all, ∀ c ∈ p.front.head?, Family.ofChar c = .mark := by
  have hall : ∀ p ∈ all, (p.front.head?.all fun c => Family.ofChar c = .mark) = true := by decide
  intro p hp c hc
  have hfront := hall p hp
  rw [Option.mem_def.mp hc] at hfront
  exact of_decide_eq_true hfront

/-- A run that is not empty begins with its first character. -/
theorem of_run_pos {q : Char → Bool} {c : Char} (h : 0 < run q (c :: cs)) : q c = true := by
  refine Decidable.byContradiction fun hc => ?_
  rw [run, List.takeWhile_cons_of_neg hc] at h
  exact absurd h (Nat.lt_irrefl 0)

/-- A pattern only matches where a match of its kind begins. -/
theorem ofChar_of_length? {c : Char} (hp : p ∈ all) (h : p.length? (c :: cs) = some n) :
    Family.ofChar c = p.family := by
  have hm := length?_eq_some.mp h
  have hmark (hne : p.front ≠ []) : Family.ofChar c = .mark := by
    obtain ⟨d, ds, hd⟩ := List.exists_cons_of_ne_nil hne
    obtain ⟨hfront, -⟩ := length?_front h
    refine ofChar_front p hp c ?_
    rw [hd] at hfront ⊢
    exact congrArg some (List.cons_prefix_cons.mp hfront).1
  cases p with
  | blank =>
    obtain ⟨rfl, hpos⟩ := hm
    exact if_pos (of_run_pos hpos)
  | word =>
    obtain ⟨_, _, ⟨⟩, hc, -⟩ := hm
    exact Family.ofChar_of_startsWord hc
  | number =>
    obtain ⟨-, hpos⟩ := hm
    exact Family.ofChar_of_isDigit (of_run_pos hpos)
  | lineComment | blockComment | text => exact hmark (List.cons_ne_nil _ _)
  | sign s k =>
    refine hmark (List.length_pos_iff.mp ?_)
    rw [← length?_of_isSign rfl h]
    exact length?_pos hp h

/-- The patterns that fix the first character of their matches, by that character. -/
theorem mem_beginning {c : Char} (hp : p ∈ all) (h : p.length? (c :: cs) = some n)
    (hc : Family.ofChar c = .mark) : p ∈ all.filter fun p => p.front.head? = some c := by
  refine List.mem_filter.mpr ⟨hp, decide_eq_true ?_⟩
  have hmark : p.family = .mark := (ofChar_of_length? hp h).symm.trans hc
  have hne : ∀ p ∈ all, p.family = .mark → p.front ≠ [] := by decide
  obtain ⟨d, ds, hd⟩ := List.exists_cons_of_ne_nil (hne p hp hmark)
  obtain ⟨hfront, -⟩ := length?_front h
  rw [hd] at hfront ⊢
  exact congrArg some (List.cons_prefix_cons.mp hfront).1

/-- A quote begins nothing but a string. -/
theorem eq_text_of_quote (hp : p ∈ all) (h : p.length? ('"' :: cs) = some n) : p = .text :=
  List.mem_singleton.mp (mem_beginning hp h (by decide))

/-- Of two patterns, tried in this order, the first one matches more wherever both match:
their matches begin with different characters, or with fronts of which the first is no
beginning of the second. -/
def outdoes (p q : Pattern) : Bool :=
  p.family ≠ q.family ||
    !p.front.isPrefixOf q.front && (q.isSign || !q.front.isPrefixOf p.front)

theorem lt_of_outdoes (hp : p ∈ all) (hq : q ∈ all) (h : p.outdoes q = true)
    (hn : p.length? cs = some n) (hm : q.length? cs = some m) : m < n := by
  obtain ⟨hfront, hle⟩ := length?_front hn
  obtain ⟨hfront', -⟩ := length?_front hm
  cases cs with
  | nil => exact absurd (length?_le hn) (Nat.not_le_of_gt (length?_pos hp hn))
  | cons c cs =>
    have hfamily := (ofChar_of_length? hp hn).symm.trans (ofChar_of_length? hq hm)
    simp only [outdoes, hfamily, ne_eq, not_true_eq_false, decide_false, Bool.false_or,
      Bool.and_eq_true, Bool.not_eq_true', Bool.or_eq_true] at h
    obtain ⟨hno, h⟩ := h
    have hshort : q.front <+: p.front := by
      refine (List.prefix_or_prefix_of_prefix hfront hfront').resolve_left fun hpre => ?_
      rw [List.isPrefixOf_iff_prefix.mpr hpre] at hno
      cases hno
    rcases h with hsign | hno'
    · rw [length?_of_isSign hsign hm]
      refine Nat.lt_of_lt_of_le (Nat.lt_of_le_of_ne hshort.length_le fun heq => ?_) hle
      rw [hshort.eq_of_length heq, List.isPrefixOf_iff_prefix.mpr (List.prefix_refl _)] at hno
      cases hno
    · rw [List.isPrefixOf_iff_prefix.mpr hshort] at hno'
      cases hno'

/-- The order of the patterns: each outdoes all that are tried behind it. -/
theorem pairwise_outdoes : all.Pairwise fun p q => p.outdoes q = true := by
  decide

end Pattern

/-! ## The first match is the longest -/

/-- No pattern matches more of the text, and none spells a longer front of it. -/
def Longest (cs : List Char) (n : Nat) : Prop :=
  ∀ q ∈ Pattern.all, (∀ m, q.length? cs = some m → m ≤ n) ∧
    ∀ lexeme, lexeme <+: cs → q.Spells lexeme → lexeme.length ≤ n

theorem longest_of_le (h : ∀ q ∈ Pattern.all, ∀ m, q.length? cs = some m → m ≤ n) :
    Longest cs n := by
  refine fun q hq => ⟨h q hq, ?_⟩
  rintro lexeme ⟨rest, rfl⟩ hl
  obtain ⟨m, hm, hle⟩ := Pattern.length?_of_spells hl rest
  exact Nat.le_trans hle (h q hq m hm)

/-- Patterns that are tried behind the one that matches first match less. -/
theorem lt_of_first? {p q : Pattern} (h : first? cs = some (p, n)) (hq : q ∈ Pattern.all)
    (hm : q.length? cs = some m) : q = p ∧ m = n ∨ m < n := by
  obtain ⟨hp, hn⟩ := first?_mem h
  obtain ⟨before, p', behind, hall, hp', hbefore⟩ := List.findSome?_eq_some_iff.mp h
  obtain ⟨k, -, heq⟩ := Option.map_eq_some_iff.mp hp'
  cases heq
  have hpairs := Pattern.pairwise_outdoes
  rw [hall] at hpairs hq
  rcases List.mem_append.mp hq with hq | hq
  · have hnone := hbefore q hq
    rw [hm] at hnone
    cases hnone
  · rcases List.mem_cons.mp hq with rfl | hbehind
    · exact .inl ⟨rfl, Option.some.inj (hm.symm.trans hn)⟩
    · have hout := List.rel_of_pairwise_cons (List.pairwise_append.mp hpairs).2.1 hbehind
      refine .inr (Pattern.lt_of_outdoes hp ?_ hout hn hm)
      rw [hall]
      exact List.mem_append_right _ hq

/-- The pattern that matches most is the first that matches. -/
theorem first?_of_le {p : Pattern} (hp : p ∈ Pattern.all) (hn : p.length? cs = some n)
    (h : ∀ q ∈ Pattern.all, ∀ m, q.length? cs = some m → m ≤ n) : first? cs = some (p, n) := by
  cases hf : first? cs with
  | none =>
    rw [first?_eq_none.mp hf p hp] at hn
    cases hn
  | some found =>
    obtain ⟨p', n'⟩ := found
    obtain ⟨hp', hn'⟩ := first?_mem hf
    rcases lt_of_first? hf hp hn with ⟨rfl, rfl⟩ | hlt
    · rfl
    · exact absurd (h p' hp' n' hn') (Nat.not_le_of_gt hlt)

/-- At every place, the first pattern that matches is the one that matches most: an operator
is not split where a longer one or a comment stands, and no front of the text that is longer
than the match is a word, a number, a string, a sign, a comment or white space. -/
theorem first?_eq_some_iff_longest {p : Pattern} : first? cs = some (p, n) ↔
    p ∈ Pattern.all ∧ p.length? cs = some n ∧ p.Spells (cs.take n) ∧ Longest cs n := by
  constructor
  · intro h
    obtain ⟨hp, hn⟩ := first?_mem h
    refine ⟨hp, hn, Pattern.spells_take hn, longest_of_le fun q hq m hm => ?_⟩
    rcases lt_of_first? h hq hm with ⟨-, rfl⟩ | hlt
    · exact Nat.le_refl _
    · exact Nat.le_of_lt hlt
  · rintro ⟨hp, hn, -, hlongest⟩
    exact first?_of_le hp hn fun q hq => (hlongest q hq).1

end ScriptLang.Lexeme
