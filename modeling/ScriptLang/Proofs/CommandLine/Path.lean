import Mathlib.Data.List.DropRight
import ScriptLang.CommandLine.Path

/-!
# Components of paths

A path is what stands before its last component, the component, and a tail that counts for
nothing.
-/

namespace ScriptLang.Path

theorem split_ne_nil (p : List Char) : split p ≠ [] := by
  fun_cases split p <;> simp

theorem exists_split (p : List Char) : ∃ cs x, split p = cs ++ [x] := by
  obtain ⟨cs, x, hsplit⟩ := (List.eq_nil_or_concat (split p)).resolve_left (split_ne_nil p)
  exact ⟨cs, x, hsplit.trans (List.concat_eq_append ..)⟩

theorem split_slash (a b : List Char) : split (a ++ '/' :: b) = split a ++ split b := by
  induction a with
  | nil => rfl
  | cons c a ih =>
    rw [List.cons_append, split, split, ih]
    by_cases hc : c = '/'
    · rw [if_pos hc, if_pos hc, List.cons_append]
    · rw [if_neg hc, if_neg hc]
      obtain ⟨first, rest, hsplit⟩ := List.exists_cons_of_ne_nil (split_ne_nil a)
      rw [hsplit]
      rfl

theorem split_name {x : List Char} (h : '/' ∉ x) : split x = [x] := by
  induction x with
  | nil => rfl
  | cons c x ih =>
    rw [List.mem_cons, not_or] at h
    rw [split, if_neg (Ne.symm h.1), ih h.2]

/-- Separators, and points behind them: what counts for nothing at the end of a path. -/
inductive Idle : List Char → Prop
  | nil : Idle []
  | slash {t : List Char} : Idle t → Idle ('/' :: t)
  | point {t : List Char} : Idle t → Idle ('/' :: '.' :: t)

namespace Idle

theorem append {s t : List Char} (hs : Idle s) (ht : Idle t) : Idle (s ++ t) := by
  induction hs with
  | nil => exact ht
  | slash _ ih => exact ih.slash
  | point _ ih => exact ih.point

theorem take {t : List Char} (h : Idle t) (n : Nat) : Idle (t.take n) := by
  induction h generalizing n with
  | nil => rw [List.take_nil]; exact nil
  | slash _ ih =>
    cases n with
    | zero => exact nil
    | succ n => exact (ih n).slash
  | point _ ih =>
    match n with
    | 0 => exact nil
    | 1 => exact nil.slash
    | n + 2 => exact (ih n).point

/-- The components of such a tail. -/
theorem split_append {t : List Char} (h : Idle t) (p : List Char) :
    ∃ cs, split (p ++ t) = split p ++ cs ∧ ∀ c ∈ cs, c = [] ∨ c = ['.'] := by
  induction h generalizing p with
  | nil => exact ⟨[], by simp, by simp⟩
  | slash _ ih =>
    obtain ⟨cs, hcs, hidle⟩ := ih []
    refine ⟨[] :: cs, ?_, List.forall_mem_cons.mpr ⟨.inl rfl, hidle⟩⟩
    rw [split_slash]
    exact congrArg _ hcs
  | point _ ih =>
    obtain ⟨cs, hcs, hidle⟩ := ih ['.']
    refine ⟨['.'] :: cs, ?_, List.forall_mem_cons.mpr ⟨.inr rfl, hidle⟩⟩
    rw [split_slash]
    exact congrArg _ hcs

end Idle

theorem trimmed_append {t : List Char} (h : Idle t) (p : List Char) :
    trimmed (p ++ t) = trimmed p := by
  induction h generalizing p with
  | nil => rw [List.append_nil]
  | slash _ ih => simpa [trimmed, trimReversed] using ih (p ++ ['/'])
  | point _ ih => simpa [trimmed, trimReversed] using ih (p ++ ['/', '.'])

theorem exists_idle (p : List Char) : ∃ t, Idle t ∧ p = trimmed p ++ t := by
  have hrev : ∀ r : List Char, ∃ t, Idle t ∧ r.reverse = (trimReversed r).reverse ++ t := by
    intro r
    fun_induction trimReversed r with
    | case1 r ih =>
      obtain ⟨t, ht, hr⟩ := ih
      exact ⟨t ++ ['/'], ht.append Idle.nil.slash, by rw [List.reverse_cons, hr, List.append_assoc]⟩
    | case2 r ih =>
      obtain ⟨t, ht, hr⟩ := ih
      exact ⟨t ++ ['/', '.'], ht.append Idle.nil.point, by simp [hr]⟩
    | case3 r => exact ⟨[], .nil, (List.append_nil _).symm⟩
  have h := hrev p.reverse
  rw [List.reverse_reverse] at h
  exact h

theorem trimmed_trimmed (p : List Char) : trimmed (trimmed p) = trimmed p := by
  obtain ⟨t, ht, hp⟩ := exists_idle p
  conv_rhs => rw [hp]
  exact (trimmed_append ht _).symm

/-- A trimmed path has no idle end. -/
theorem eq_nil_of_trimmed {p b t : List Char} (h : trimmed p = b ++ t) (ht : Idle t) : t = [] := by
  have htwice := trimmed_trimmed p
  rw [h, trimmed_append ht] at htwice
  obtain ⟨u, -, hb⟩ := exists_idle b
  have hlength := congrArg List.length hb
  rw [htwice, List.length_append, List.length_append] at hlength
  exact List.eq_nil_of_length_eq_zero (by omega)

/-- What stands in front of a component: nothing, or text that ends in a separator. -/
def Leads (before : List Char) : Prop := before = [] ∨ ∃ b, before = b ++ ['/']

/-- A component that is not idle. -/
structure Counts (x : List Char) : Prop where
  single : '/' ∉ x
  ne_nil : x ≠ []
  ne_point : x ≠ ['.']

/-- A path with a last component, cut there. -/
theorem exists_last (p : List Char) : ∃ t, Idle t ∧
    p = beforeLast p ++ lastComponent p ++ t ∧ Leads (beforeLast p) ∧
    '/' ∉ lastComponent p ∧ (lastComponent p = ['.'] → beforeLast p = []) := by
  obtain ⟨t, ht, hp⟩ := exists_idle p
  have hcut : trimmed p = beforeLast p ++ lastComponent p := by
    rw [beforeLast, lastComponent, ← List.reverse_append, List.takeWhile_append_dropWhile,
      List.reverse_reverse]
  have hsingle : '/' ∉ lastComponent p := by
    intro hmem
    rw [lastComponent, List.mem_reverse] at hmem
    simpa using List.mem_takeWhile_imp hmem
  have hleads : Leads (beforeLast p) := by
    cases hb : (trimmed p).reverse.dropWhile (· ≠ '/') with
    | nil => exact .inl (by rw [beforeLast, hb]; rfl)
    | cons c b =>
      have hc : c = '/' := by
        have h := List.head?_dropWhile_not (· ≠ '/') (trimmed p).reverse
        rw [hb] at h
        simpa using h
      exact .inr ⟨b.reverse, by rw [beforeLast, hb, hc, List.reverse_cons]⟩
  refine ⟨t, ht, by rw [← hcut]; exact hp, hleads, hsingle, fun hpoint => ?_⟩
  rcases hleads with hnil | ⟨b, hb⟩
  · exact hnil
  · have hend : trimmed p = b ++ ['/', '.'] := by rw [hcut, hb, hpoint, List.append_assoc]; rfl
    exact absurd (eq_nil_of_trimmed hend Idle.nil.point) (by simp)

/-- A component that counts is the last of a path, whatever idle tail follows it. -/
theorem trimmed_component (before : List Char) {x t : List Char} (hx : Counts x) (ht : Idle t) :
    trimmed (before ++ x ++ t) = before ++ x := by
  rw [trimmed_append ht]
  obtain ⟨y, c, rfl⟩ := (List.eq_nil_or_concat x).resolve_left hx.ne_nil
  have hc : c ≠ '/' := fun h => hx.single (by simp [h])
  have hstop : trimReversed (c :: (y.reverse ++ before.reverse)) =
      c :: (y.reverse ++ before.reverse) := by
    rw [trimReversed]
    · simpa using hc
    · intro cs hcs
      obtain ⟨hpoint, hcs⟩ := List.cons.inj hcs
      rcases List.eq_nil_or_concat y with rfl | ⟨z, d, rfl⟩
      · exact hx.ne_point (by simp [hpoint])
      · have hd : d = '/' := by simpa using congrArg List.head? hcs
        exact hx.single (by simp [hd])
  simp [trimmed, hstop]

/-- The parts of a path whose last component counts. -/
theorem parts_component {before x t : List Char} (hb : Leads before) (hx : Counts x)
    (ht : Idle t) :
    lastComponent (before ++ x ++ t) = x ∧ beforeLast (before ++ x ++ t) = before := by
  rw [lastComponent, beforeLast, trimmed_component before hx ht, List.reverse_append]
  have hall : ∀ c ∈ x.reverse, decide (c ≠ '/') = true := by
    intro c hc
    rw [List.mem_reverse] at hc
    exact decide_eq_true fun h => hx.single (h ▸ hc)
  rw [List.takeWhile_append_of_pos hall, List.dropWhile_append_of_pos hall]
  rcases hb with rfl | ⟨b, rfl⟩ <;> simp

theorem split_leads {b : List Char} (hb : Leads b) : ∃ cs, ∀ {x : List Char}, '/' ∉ x →
    split (b ++ x) = cs ++ [x] := by
  rcases hb with rfl | ⟨b, rfl⟩
  · exact ⟨[], fun hx => split_name hx⟩
  · refine ⟨split b, fun {x} hx => ?_⟩
    rw [List.append_assoc, List.singleton_append, split_slash, split_name hx]

/-- A path is text for directories and a name, that may be empty. -/
theorem exists_leads (p : List Char) : ∃ b x, p = b ++ x ∧ Leads b ∧ '/' ∉ x := by
  induction p using List.reverseRecOn with
  | nil => exact ⟨[], [], rfl, .inl rfl, List.not_mem_nil⟩
  | append_singleton y c ih =>
    by_cases hc : c = '/'
    · exact ⟨y ++ ['/'], [], by rw [hc, List.append_nil], .inr ⟨y, rfl⟩, List.not_mem_nil⟩
    · obtain ⟨b, x, rfl, hb, hsingle⟩ := ih
      refine ⟨b, x ++ [c], List.append_assoc .., hb, ?_⟩
      simp [hsingle, Ne.symm hc]

/-- The last component of a path stands at its end. -/
theorem exists_of_split {p x : List Char} {cs : List (List Char)} (h : split p = cs ++ [x]) :
    ∃ b, p = b ++ x ∧ Leads b ∧ '/' ∉ x := by
  obtain ⟨b, y, rfl, hb, hsingle⟩ := exists_leads p
  obtain ⟨ds, hds⟩ := split_leads hb
  obtain ⟨-, hxy⟩ := List.append_inj' (h.symm.trans (hds hsingle)) rfl
  obtain rfl : x = y := by simpa using hxy
  exact ⟨b, rfl, hb, hsingle⟩

/-- Only a separator has an empty component behind it. -/
theorem ne_nil_of_split {p x : List Char} {cs : List (List Char)} (hne : p ≠ [])
    (hslash : p.getLast? ≠ some '/') (h : split p = cs ++ [x]) : x ≠ [] := by
  obtain ⟨b, rfl, hb, -⟩ := exists_of_split h
  rintro rfl
  rcases hb with rfl | ⟨b, rfl⟩
  · exact hne rfl
  · exact hslash (by simp)

/-- A path that ends in a component that counts has no idle tail. -/
theorem trimmed_of_split {p x : List Char} {cs : List (List Char)} (h : split p = cs ++ [x])
    (hnil : x ≠ []) (hpoint : x ≠ ['.']) : p ≠ [] ∧ trimmed p = p := by
  obtain ⟨b, rfl, -, hsingle⟩ := exists_of_split h
  have htrimmed := trimmed_component b ⟨hsingle, hnil, hpoint⟩ Idle.nil
  rw [List.append_nil] at htrimmed
  exact ⟨by simp [hnil], htrimmed⟩

/-- A path as a parent is written: without an idle tail, unless it is the top. -/
def Clean (p : List Char) : Prop := p = ['/'] ∨ p ≠ [] ∧ trimmed p = p

theorem Clean.ne_nil {p : List Char} (h : Clean p) : p ≠ [] := by
  rcases h with rfl | ⟨hne, -⟩
  · exact List.cons_ne_nil _ _
  · exact hne

/-- A path without an idle tail is text for directories and a component. -/
theorem exists_component {p : List Char} (hne : p ≠ []) (h : trimmed p = p) :
    p = beforeLast p ++ lastComponent p ∧ Leads (beforeLast p) ∧ '/' ∉ lastComponent p ∧
      lastComponent p ≠ [] := by
  obtain ⟨t, ht, hp, hb, hsingle, -⟩ := exists_last p
  obtain rfl := eq_nil_of_trimmed (h.trans hp) ht
  rw [List.append_nil] at hp
  refine ⟨hp, hb, hsingle, fun hlast => ?_⟩
  rw [hlast, List.append_nil] at hp
  rcases hb with hnil | ⟨b, hb⟩
  · exact hne (hp.trans hnil)
  · exact absurd (eq_nil_of_trimmed (h.trans (hp.trans hb)) Idle.nil.slash) (by simp)

/-- A parent is the start of its path, without what is idle in front of the last component. -/
structure ParentOf (parent p : List Char) (cs : List (List Char)) : Prop where
  clean : Clean parent
  start : parent <+: p
  shorter : parent.length < p.length
  /-- The components of the parent are those in front of the last, but for idle ones. -/
  components : ∃ kept extra idle, split parent = kept ++ extra ∧ kept ++ idle = cs ++ [[]] ∧
    ∀ c ∈ extra ++ idle, c = [] ∨ c = ['.']

/-- A path without an idle tail is a component, or it has a parent. -/
theorem exists_parent {p : List Char} (hne : p ≠ []) (h : trimmed p = p) :
    ∃ cs x parent, split p = cs ++ [x] ∧ parent? p = some parent ∧
      (parent = [] ∧ cs = [] ∨ ParentOf parent p cs) := by
  obtain ⟨hp, hb, hsingle, hlast⟩ := exists_component hne h
  have hparent : parent? p = some (if beforeLast p ≠ [] && trimmed (beforeLast p) = [] then ['/']
      else trimmed (beforeLast p)) := by
    rw [parent?, if_neg hlast]
    exact (apply_ite some _ _ _).symm
  have hlength := congrArg List.length hp
  rw [List.length_append] at hlength
  have hpos := List.length_pos_of_ne_nil hlast
  rcases hb with hnil | ⟨b, hb⟩
  · refine ⟨[], lastComponent p, [], ?_, ?_, .inl ⟨rfl, rfl⟩⟩
    · conv_lhs => rw [hp, hnil]
      exact split_name hsingle
    · rw [hparent, hnil]
      rfl
  · have hsplit : split p = split b ++ [lastComponent p] := by
      conv_lhs => rw [hp, hb]
      rw [List.append_assoc, List.singleton_append, split_slash, split_name hsingle]
    have hbefore : split (beforeLast p) = split b ++ [[]] := by rw [hb, split_slash]; rfl
    obtain ⟨t, ht, htrim⟩ := exists_idle (beforeLast p)
    obtain ⟨idle, hidle, hall⟩ := ht.split_append (trimmed (beforeLast p))
    rw [← htrim, hbefore] at hidle
    refine ⟨split b, lastComponent p, _, hsplit, hparent, .inr ?_⟩
    have hstart : beforeLast p <+: p := ⟨_, hp.symm⟩
    have hbefore_ne : beforeLast p ≠ [] := by rw [hb]; simp
    -- Only separators in front of the component: the parent is the top, not the empty path.
    by_cases htop : trimmed (beforeLast p) = []
    · rw [htop, List.nil_append] at htrim
      rw [htop] at hidle
      have hslash : ['/'] <+: beforeLast p := by
        rw [htrim] at hbefore_ne ⊢
        cases ht with
        | nil => exact absurd rfl hbefore_ne
        | slash _ => exact ⟨_, rfl⟩
        | point _ => exact ⟨_, rfl⟩
      rw [if_pos (by simp [hbefore_ne, htop])]
      have hlength' := hslash.length_le
      rw [List.length_singleton] at hlength'
      exact ⟨.inl rfl, hslash.trans hstart, by rw [List.length_singleton]; omega, [[]], [[]], idle,
        rfl, hidle.symm, List.forall_mem_cons.mpr ⟨.inl rfl, hall⟩⟩
    · rw [if_neg (by simp [htop])]
      have hkept : trimmed (beforeLast p) <+: beforeLast p := ⟨t, htrim.symm⟩
      have hlength' := hkept.length_le
      exact ⟨.inr ⟨htop, trimmed_trimmed _⟩, hkept.trans hstart, by omega, _, [], idle,
        (List.append_nil _).symm, hidle.symm, hall⟩

end ScriptLang.Path
