import ScriptLang.Proofs.Grammar.Relocation

/-!
# Expressions are read again

The tokens of an expression, alone and anywhere, give the same expression to a rule that takes
any operator. For the rule that read them took only operators that bind tighter than its place
asks for, and where it stopped there is the end of the file now.

An expression is what an operand has been extended to, step by step. All that is asked of a
step is that the more permissive rule takes it, too.
-/

namespace ScriptLang.Grammar

open ScriptLang.Parser

/-- Alone and moved, the tokens are read as the expression with its spans moved, to the last. -/
def Rereads (ts : List Token) (e : Expr) : Prop :=
  ∀ (f : Position → Position) (n : Nat) (d : Cursor), d.pending = ts.map (Token.move f) →
    Attains (fun e' d' => e' = e.move f ∧ d'.pending = []) (expression n .default d)

/-- A rule that takes any operator and starts where the first cursor does, or at another place
where the same is seen, has read `left` when it comes to the second cursor. -/
def Reaches (c : Cursor) (left : Expr) (c' : Cursor) : Prop :=
  ∀ (w : Window) (d : Cursor), w.rest.length ≤ c'.pending.length → c.Sees w False d → ∀ n,
    (∃ d', expression n .default d = .error .outOfFuel d') ∨
      ∃ m d', expression n .default d = extended m .default (left.move w.move) d' ∧
        c'.Sees w True d'

variable {c c₁ c' : Cursor} {left wider e : Expr} {k : Nat}

theorem reaches_operand
    (h : operand (expression k) (statements k .closeCurly) c = .ok left c') :
    Reaches c left c' := by
  intro w d hle hd n
  cases n with
  | zero => exact .inl ⟨d, rfl⟩
  | succ n =>
    have hcarry := carrying w k n
    obtain ⟨-, hsees⟩ := carries_operand hcarry.expression (hcarry.statements _) c left c' h
    rw [expression]
    rcases hsees d hd hle with ⟨d', hd'⟩ | ⟨_, d', hd', rfl, hs⟩
    · exact .inl ⟨d', bind_of_error _ hd'⟩
    · exact .inr ⟨n, d', bind_of_ok _ hd', hs⟩

/-- Whatever the place asks for, no operator is taken that the more permissive rule leaves. -/
theorem Reaches.continuation {p : BindingPower} (h : Reaches c left c₁)
    (hp : p < c₁.current.kind.bindingPower)
    (hc : continuation (expression k) (arguments k) left c₁ = .ok wider c') :
    Reaches c wider c' := by
  intro w d hle hd n
  have hlength := (carries_continuation (carrying w k k).expression
    (carrying w k k).arguments |>.upto hc).length
  rcases h w d (by omega) hd n with hout | ⟨m, d₁, heq, hs⟩
  · exact .inl hout
  rw [heq]
  cases m with
  | zero => exact .inl ⟨d₁, rfl⟩
  | succ m =>
    have hcarry := carrying w k m
    obtain ⟨-, hsees⟩ := carries_continuation hcarry.expression hcarry.arguments c₁ wider c' hc
    have htaken : BindingPower.default < d₁.current.kind.bindingPower := by
      rw [hs.current (by omega)]
      exact Nat.lt_of_le_of_lt (Nat.zero_le p.rank) hp
    rw [extended, current_bind, if_pos htaken]
    rcases hsees d₁ hs hle with ⟨d', hd'⟩ | ⟨_, d', hd', rfl, hs'⟩
    · exact .inl ⟨d', bind_of_error _ hd'⟩
    · exact .inr ⟨m, d', bind_of_ok _ hd', hs'⟩

theorem Reaches.rereads {ts : List Token} (h : Reaches c e c') (hts : c.Passes ts c') :
    Rereads ts e := by
  intro f n d hd
  rcases h ⟨f, c'.pending⟩ d (Nat.le_refl _) ⟨⟨ts, hts.pending, hd⟩, False.elim⟩ n with
    hout | ⟨m, d', heq, hs⟩
  · exact .inl hout
  rw [heq]
  cases m with
  | zero => exact .inl ⟨d', rfl⟩
  | succ m =>
    -- No token is left, and the end of the file extends nothing.
    obtain ⟨us, hus, hd'⟩ := hs.pending
    obtain rfl := List.self_eq_append_left.mp hus
    refine .inr ⟨_, d', extended_ok.mpr (.inr ⟨?_, rfl, rfl⟩), rfl, hd'⟩
    rw [hs.kind_eof (Nat.le_refl _)]
    exact Nat.not_lt_zero _

end ScriptLang.Grammar
