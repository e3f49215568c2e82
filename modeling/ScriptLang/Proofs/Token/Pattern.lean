import ScriptLang.Token.Lexer

/-!
# What patterns match

A match is not empty and lies in the text. No pattern looks past its match: what stands
behind it can be cut off, and what does not match still does not where the text is cut.
-/

namespace ScriptLang.Lexeme

variable {cs ds : List Char} {n : Nat}

/-! ## Lengths that are always there -/

/-- The length of a front of the text, which does not depend on what stands behind it. -/
structure Measures (f : List Char → Nat) : Prop where
  le : ∀ cs, f cs ≤ cs.length
  of_append : ∀ {cs ds}, f (cs ++ ds) ≤ cs.length → f cs = f (cs ++ ds)

/-- Two fronts, one behind the other. -/
theorem Measures.andThen {f g : List Char → Nat} (hf : Measures f) (hg : Measures g) :
    Measures fun cs => f cs + g (cs.drop (f cs)) where
  le cs := by
    have hfirst := hf.le cs
    have hsecond := hg.le (cs.drop (f cs))
    rw [List.length_drop] at hsecond
    omega
  of_append {cs ds} h := by
    have hfirst : f cs = f (cs ++ ds) := hf.of_append (by omega)
    have hle := hf.le cs
    rw [← hfirst, List.drop_append_of_le_length hle] at h
    have hsecond : g (cs.drop (f cs)) = g (cs.drop (f cs) ++ ds) :=
      hg.of_append (by rw [List.length_drop]; omega)
    rw [← hfirst, List.drop_append_of_le_length hle, hsecond]

theorem measures_run (q : Char → Bool) : Measures (run q) where
  le _ := (List.takeWhile_prefix q).length_le
  of_append {cs ds} h := by
    induction cs with
    | nil => exact (Nat.le_zero.mp h).symm
    | cons c cs ih =>
      unfold run at h ih ⊢
      rw [List.cons_append, List.takeWhile_cons] at h ⊢
      rw [List.takeWhile_cons]
      split
      · next hc =>
        rw [if_pos hc] at h
        exact congrArg (· + 1) (ih (Nat.le_of_succ_le_succ h))
      · rfl

theorem measures_fractionLength : Measures fractionLength where
  le cs := by
    unfold fractionLength
    split
    · next cs =>
      have hdigits := (measures_run Char.isDigit).le cs
      rw [List.length_cons]
      split <;> omega
    · exact Nat.zero_le _
  of_append {cs ds} h := by
    cases cs with
    | nil => exact (Nat.le_zero.mp h).symm
    | cons c cs =>
      by_cases hc : c = '.'
      · subst hc
        simp only [List.cons_append, fractionLength, List.length_cons] at h ⊢
        have hdigits : run Char.isDigit cs = run Char.isDigit (cs ++ ds) :=
          (measures_run _).of_append (by split at h <;> omega)
        rw [hdigits]
      · rw [List.cons_append, fractionLength, fractionLength]
        · exact fun _ h => hc (List.cons.inj h).1
        · exact fun _ h => hc (List.cons.inj h).1

theorem measures_suffixLength : Measures suffixLength where
  le cs := by
    unfold suffixLength
    split <;> simp
  of_append {cs ds} h := by
    cases cs with
    | nil => exact (Nat.le_zero.mp h).symm
    | cons c cs =>
      rw [List.cons_append]
      unfold suffixLength
      split <;> simp_all

theorem measures_numberLength : Measures numberLength :=
  ((measures_run Char.isDigit).andThen measures_fractionLength).andThen measures_suffixLength

theorem run_le_numberLength (cs : List Char) : run Char.isDigit cs ≤ numberLength cs := by
  rw [numberLength, Nat.add_assoc]
  exact Nat.le_add_right _ _

section

variable (q : Char → Bool)

theorem take_run (cs : List Char) : cs.take (run q cs) = cs.takeWhile q :=
  (List.prefix_iff_eq_take.mp (List.takeWhile_prefix q)).symm

theorem drop_run (cs : List Char) : cs.drop (run q cs) = cs.dropWhile q :=
  calc cs.drop (run q cs)
    _ = (cs.takeWhile q ++ cs.dropWhile q).drop (cs.takeWhile q).length := by
      rw [List.takeWhile_append_dropWhile, run]
    _ = cs.dropWhile q := List.drop_left

end

/-- A front that is not longer than the first text is a front of it. -/
theorem front_of_append (front : List Char) {rest : List Char} (h : cs ++ ds = front ++ rest)
    (hn : front.length ≤ cs.length) : ∃ cs', cs = front ++ cs' ∧ rest = cs' ++ ds := by
  obtain ⟨cs', rfl⟩ : front <+: cs :=
    List.prefix_of_prefix_length_le ⟨rest, h.symm⟩ (List.prefix_append cs ds) hn
  rw [List.append_assoc] at h
  exact ⟨cs', rfl, (List.append_cancel_left h).symm⟩

/-! ## What is closed by its end -/

/-- The function measures the texts with the property, each known by its own characters:
whatever stands behind does not matter. -/
def Delimits (f : List Char → Option Nat) (p : List Char → Prop) : Prop :=
  ∀ cs n, f cs = some n ↔ ∃ text rest, cs = text ++ rest ∧ n = text.length ∧ p text

namespace Delimits

variable {f : List Char → Option Nat} {p : List Char → Prop} (h : Delimits f p)

include h

theorem le (hn : f cs = some n) : n ≤ cs.length := by
  obtain ⟨text, rest, rfl, rfl, -⟩ := (h cs n).mp hn
  rw [List.length_append]
  omega

theorem append (hn : f cs = some n) : f (cs ++ ds) = some n := by
  obtain ⟨text, rest, rfl, rfl, hp⟩ := (h cs n).mp hn
  exact (h _ _).mpr ⟨text, rest ++ ds, List.append_assoc .., rfl, hp⟩

theorem of_append (hn : f (cs ++ ds) = some n) (hle : n ≤ cs.length) : f cs = some n := by
  obtain ⟨text, rest, heq, rfl, hp⟩ := (h _ n).mp hn
  obtain ⟨cs', rfl, -⟩ := front_of_append text heq hle
  exact (h _ _).mpr ⟨text, cs', rfl, rfl, hp⟩

end Delimits

/-- Ends with the first `*/` in it. -/
def EndsComment (text : List Char) : Prop :=
  ∃ body, text = body ++ ['*', '/'] ∧ ¬ ['*', '/'] <:+: body ++ ['*']

theorem commentEnd?_cons {c : Char} (h : ¬ (c = '*' ∧ cs.head? = some '/')) :
    commentEnd? (c :: cs) = (commentEnd? cs).map (· + 1) := by
  rw [commentEnd?.eq_def]
  split
  · next heq =>
    cases heq
    exact absurd ⟨rfl, rfl⟩ h
  · next heq =>
    cases heq
    rfl
  · next heq => cases heq

theorem delimits_commentEnd? : Delimits commentEnd? EndsComment := by
  intro cs n
  constructor
  · intro h
    induction cs generalizing n with
    | nil => cases h
    | cons c cs ih =>
      by_cases hc : c = '*' ∧ cs.head? = some '/'
      · obtain ⟨rfl, hc⟩ := hc
        obtain ⟨rest, rfl⟩ := List.head?_eq_some_iff.mp hc
        cases h
        exact ⟨['*', '/'], rest, rfl, rfl, [], rfl, fun hin => absurd hin.length_le (by decide)⟩
      · rw [commentEnd?_cons hc] at h
        obtain ⟨m, hm, rfl⟩ := Option.map_eq_some_iff.mp h
        obtain ⟨_, rest, rfl, rfl, body, rfl, hbody⟩ := ih m hm
        refine ⟨c :: body ++ ['*', '/'], rest, rfl, rfl, c :: body, rfl, fun hin => ?_⟩
        -- An end before this one begins with this character, and no slash follows it.
        rcases List.infix_cons_iff.mp hin with hfront | hin
        · obtain ⟨rfl, hslash⟩ := List.cons_prefix_cons.mp hfront
          refine hc ⟨rfl, ?_⟩
          cases body with
          | nil => exact absurd (List.cons_prefix_cons.mp hslash).1 (by decide)
          | cons d body => exact congrArg some (List.cons_prefix_cons.mp hslash).1.symm
        · exact hbody hin
  · rintro ⟨_, rest, rfl, rfl, body, rfl, hbody⟩
    induction body with
    | nil => rfl
    | cons c body ih =>
      have hc : ¬ (c = '*' ∧ (body ++ ['*', '/'] ++ rest).head? = some '/') := by
        rintro ⟨rfl, hslash⟩
        cases body with
        | nil => cases hslash
        | cons d body =>
          cases hslash
          exact hbody ⟨[], body ++ ['*'], rfl⟩
      rw [List.cons_append, List.cons_append, commentEnd?_cons hc,
        ih fun hin => hbody (List.infix_cons_iff.mpr (.inr hin))]
      rfl

/-- Ends with the quote that closes a string. -/
inductive EndsString : List Char → Prop
  | quote : EndsString ['"']
  | escape {c : Char} {text : List Char} : c ≠ '\n' → EndsString text →
    EndsString ('\\' :: c :: text)
  | plain {c : Char} {text : List Char} : c ≠ '"' → c ≠ '\\' → EndsString text →
    EndsString (c :: text)

theorem quoteEnd?_cons {c : Char} (hq : c ≠ '"') (he : c ≠ '\\') :
    quoteEnd? (c :: cs) = (quoteEnd? cs).map (· + 1) := by
  rw [quoteEnd?]
  · exact hq
  · exact fun _ _ h => absurd h he
  · exact fun h => absurd h he

theorem delimits_quoteEnd? : Delimits quoteEnd? EndsString := by
  intro cs n
  constructor
  · intro h
    fun_induction quoteEnd? cs generalizing n with
    | case1 rest =>
      cases h
      exact ⟨['"'], rest, rfl, rfl, .quote⟩
    | case3 c cs hc ih =>
      obtain ⟨m, hm, rfl⟩ := Option.map_eq_some_iff.mp h
      obtain ⟨text, rest, rfl, rfl, ht⟩ := ih m hm
      exact ⟨'\\' :: c :: text, rest, rfl, rfl, .escape hc ht⟩
    | case5 c cs hq hescape hend ih =>
      have he : c ≠ '\\' := by
        rintro rfl
        cases cs with
        | nil => exact hend rfl rfl
        | cons d cs => exact hescape d cs rfl rfl
      obtain ⟨m, hm, rfl⟩ := Option.map_eq_some_iff.mp h
      obtain ⟨text, rest, rfl, rfl, ht⟩ := ih m hm
      exact ⟨c :: text, rest, rfl, rfl, .plain hq he ht⟩
    | case2 | case4 | case6 => cases h
  · rintro ⟨text, rest, rfl, rfl, ht⟩
    induction ht with
    | quote => rfl
    | escape hc _ ih => simp [quoteEnd?, hc, ih]
    | plain hq he _ ih =>
      rw [List.cons_append, quoteEnd?_cons hq he, ih]
      rfl

/-! ## Patterns -/

namespace Pattern

/-- What a pattern matches at the front of a text, by the length of the match. -/
def Matches (cs : List Char) (n : Nat) : Pattern → Prop
  | .blank => n = run Text.isBlank cs ∧ 0 < n
  | .lineComment => ∃ rest, cs = '/' :: '/' :: rest ∧ n = 2 + run (· ≠ '\n') rest
  | .blockComment => ∃ rest m, cs = '/' :: '*' :: rest ∧ commentEnd? rest = some m ∧ n = 2 + m
  | .word => ∃ c rest, cs = c :: rest ∧ startsWord c = true ∧ n = 1 + run continuesWord rest
  | .number => n = numberLength cs ∧ 0 < run Char.isDigit cs
  | .text => ∃ rest m, cs = '"' :: rest ∧ quoteEnd? rest = some m ∧ n = 1 + m
  | .sign s _ => s <+: cs ∧ n = s.length

variable {p : Pattern}

theorem length?_eq_some : p.length? cs = some n ↔ p.Matches cs n := by
  constructor
  · fun_cases length? p cs with
    | case2 cs hz | case8 cs hz =>
      intro h
      cases h
      exact ⟨rfl, Nat.pos_of_ne_zero hz⟩
    | case3 cs =>
      intro h
      cases h
      exact ⟨cs, rfl, rfl⟩
    | case4 cs | case9 cs =>
      intro h
      obtain ⟨m, hm, rfl⟩ := Option.map_eq_some_iff.mp h
      exact ⟨cs, m, rfl, hm, rfl⟩
    | case5 c cs hc =>
      intro h
      cases h
      exact ⟨c, cs, rfl, hc, rfl⟩
    | case10 s k cs hs =>
      intro h
      cases h
      exact ⟨List.isPrefixOf_iff_prefix.mp hs, rfl⟩
    | case1 | case6 | case7 | case11 | case12 => exact nofun
  · intro h
    cases p with
    | blank | number =>
      obtain ⟨rfl, hpos⟩ := h
      exact if_neg (by omega)
    | lineComment =>
      obtain ⟨rest, rfl, rfl⟩ := h
      rfl
    | blockComment | text =>
      obtain ⟨rest, m, rfl, hend, rfl⟩ := h
      rw [length?, hend]
      rfl
    | word =>
      obtain ⟨c, rest, rfl, hc, rfl⟩ := h
      exact if_pos hc
    | sign s k =>
      obtain ⟨hs, rfl⟩ := h
      exact if_pos (List.isPrefixOf_iff_prefix.mpr hs)

theorem length?_pos (hp : p ∈ all) (h : p.length? cs = some n) : 0 < n := by
  have hm := length?_eq_some.mp h
  cases p with
  | blank => exact hm.2
  | lineComment =>
    obtain ⟨rest, -, rfl⟩ := hm
    omega
  | blockComment | text =>
    obtain ⟨rest, m, -, -, rfl⟩ := hm
    omega
  | word =>
    obtain ⟨c, rest, -, -, rfl⟩ := hm
    omega
  | number =>
    obtain ⟨rfl, hdigits⟩ := hm
    exact Nat.lt_of_lt_of_le hdigits (run_le_numberLength cs)
  | sign s k =>
    obtain ⟨-, rfl⟩ := hm
    refine List.length_pos_iff.mpr ?_
    rintro rfl
    simp [all] at hp

theorem length?_le (h : p.length? cs = some n) : n ≤ cs.length := by
  have hm := length?_eq_some.mp h
  cases p with
  | blank =>
    obtain ⟨rfl, -⟩ := hm
    exact (measures_run _).le cs
  | lineComment =>
    obtain ⟨rest, rfl, rfl⟩ := hm
    have hrest := (measures_run (· ≠ '\n')).le rest
    simp only [List.length_cons]
    omega
  | blockComment =>
    obtain ⟨rest, m, rfl, hend, rfl⟩ := hm
    have hrest := delimits_commentEnd?.le hend
    simp only [List.length_cons]
    omega
  | word =>
    obtain ⟨c, rest, rfl, -, rfl⟩ := hm
    have hrest := (measures_run continuesWord).le rest
    rw [List.length_cons]
    omega
  | number =>
    obtain ⟨rfl, -⟩ := hm
    exact measures_numberLength.le cs
  | text =>
    obtain ⟨rest, m, rfl, hend, rfl⟩ := hm
    have hrest := delimits_quoteEnd?.le hend
    rw [List.length_cons]
    omega
  | sign s =>
    obtain ⟨hs, rfl⟩ := hm
    exact hs.length_le

/-- What is cut off behind a match does not matter to it. -/
theorem length?_of_append (h : p.length? (cs ++ ds) = some n) (hn : n ≤ cs.length) :
    p.length? cs = some n := by
  have hm := length?_eq_some.mp h
  refine length?_eq_some.mpr ?_
  cases p with
  | blank =>
    obtain ⟨rfl, hpos⟩ := hm
    exact ⟨((measures_run _).of_append hn).symm, hpos⟩
  | lineComment =>
    obtain ⟨rest, heq, rfl⟩ := hm
    obtain ⟨cs, rfl, rfl⟩ := front_of_append ['/', '/'] heq (by simp; omega)
    have hbody : run (· ≠ '\n') cs = run (· ≠ '\n') (cs ++ ds) :=
      (measures_run _).of_append (by simp at hn ⊢; omega)
    exact ⟨cs, rfl, congrArg (2 + ·) hbody.symm⟩
  | blockComment =>
    obtain ⟨rest, m, heq, hend, rfl⟩ := hm
    obtain ⟨cs, rfl, rfl⟩ := front_of_append ['/', '*'] heq (by simp; omega)
    exact ⟨cs, m, rfl, delimits_commentEnd?.of_append hend (by simp at hn; omega), rfl⟩
  | word =>
    obtain ⟨c, rest, heq, hc, rfl⟩ := hm
    obtain ⟨cs, rfl, rfl⟩ := front_of_append [c] heq (by simp; omega)
    have hbody : run continuesWord cs = run continuesWord (cs ++ ds) :=
      (measures_run _).of_append (by simp at hn; omega)
    exact ⟨c, cs, rfl, hc, congrArg (1 + ·) hbody.symm⟩
  | number =>
    obtain ⟨rfl, hpos⟩ := hm
    have hdigits := run_le_numberLength (cs ++ ds)
    refine ⟨(measures_numberLength.of_append hn).symm, ?_⟩
    rwa [(measures_run Char.isDigit).of_append (Nat.le_trans hdigits hn)]
  | text =>
    obtain ⟨rest, m, heq, hend, rfl⟩ := hm
    obtain ⟨cs, rfl, rfl⟩ := front_of_append ['"'] heq (by simp; omega)
    exact ⟨cs, m, rfl, delimits_quoteEnd?.of_append hend (by simp at hn; omega), rfl⟩
  | sign s =>
    obtain ⟨hs, rfl⟩ := hm
    exact ⟨List.prefix_of_prefix_length_le hs (List.prefix_append cs ds) hn, rfl⟩

/-- What matches a text matches it with more behind, perhaps further. -/
theorem length?_append (h : p.length? cs = some n) : ∃ m, p.length? (cs ++ ds) = some m := by
  have hm := length?_eq_some.mp h
  suffices ∃ m, p.Matches (cs ++ ds) m from this.imp fun m => length?_eq_some.mpr
  have hrun (q : Char → Bool) (hpos : 0 < run q cs) : 0 < run q (cs ++ ds) := by
    by_cases hz : run q (cs ++ ds) = 0
    · rw [(measures_run q).of_append (hz ▸ Nat.zero_le _), hz] at hpos
      exact absurd hpos (Nat.lt_irrefl 0)
    · exact Nat.pos_of_ne_zero hz
  cases p with
  | blank =>
    obtain ⟨rfl, hpos⟩ := hm
    exact ⟨_, rfl, hrun _ hpos⟩
  | lineComment =>
    obtain ⟨rest, rfl, -⟩ := hm
    exact ⟨_, rest ++ ds, rfl, rfl⟩
  | blockComment =>
    obtain ⟨rest, m, rfl, hend, -⟩ := hm
    exact ⟨_, rest ++ ds, m, rfl, delimits_commentEnd?.append hend, rfl⟩
  | word =>
    obtain ⟨c, rest, rfl, hc, -⟩ := hm
    exact ⟨_, c, rest ++ ds, rfl, hc, rfl⟩
  | number =>
    obtain ⟨-, hpos⟩ := hm
    exact ⟨_, rfl, hrun _ hpos⟩
  | text =>
    obtain ⟨rest, m, rfl, hend, -⟩ := hm
    exact ⟨_, rest ++ ds, m, rfl, delimits_quoteEnd?.append hend, rfl⟩
  | sign s =>
    obtain ⟨hs, -⟩ := hm
    exact ⟨_, hs.trans (List.prefix_append cs ds), rfl⟩

end Pattern

/-! ## The first pattern that matches -/

theorem first?_mem {p : Pattern} (h : first? cs = some (p, n)) :
    p ∈ Pattern.all ∧ p.length? cs = some n := by
  obtain ⟨q, hq, hn⟩ := List.exists_of_findSome?_eq_some h
  obtain ⟨k, hk, heq⟩ := Option.map_eq_some_iff.mp hn
  cases heq
  exact ⟨hq, hk⟩

theorem first?_eq_none : first? cs = none ↔ ∀ p ∈ Pattern.all, p.length? cs = none := by
  simp [first?, List.findSome?_eq_none_iff]

/-- What is cut off behind the first match changes nothing. -/
theorem first?_of_append {p : Pattern} (h : first? (cs ++ ds) = some (p, n))
    (hn : n ≤ cs.length) : first? cs = some (p, n) := by
  obtain ⟨before, q, behind, hall, hq, hbefore⟩ := List.findSome?_eq_some_iff.mp h
  obtain ⟨k, hk, heq⟩ := Option.map_eq_some_iff.mp hq
  cases heq
  refine List.findSome?_eq_some_iff.mpr ⟨before, p, behind, hall, ?_, fun o ho => ?_⟩
  · rw [Pattern.length?_of_append hk hn]
    rfl
  · have hnone := hbefore o ho
    cases hc : o.length? cs with
    | none => rfl
    | some m =>
      obtain ⟨m', hm'⟩ : ∃ m, o.length? (cs ++ ds) = some m := Pattern.length?_append hc
      rw [hm'] at hnone
      cases hnone

end ScriptLang.Lexeme
