import Mathlib.Data.List.GetD
import ScriptLang.Proofs.Grammar.Ahead
import ScriptLang.Proofs.Grammar.Rule
import ScriptLang.Proofs.Tree.Moved

/-!
# Rules see what they read

What stands behind the tokens a rule consumed does not matter to it, and where they stand is
seen in spans only. So on the same tokens at another place, with the end of the file behind
them, the rule gives the same tree with its spans moved, unless its fuel runs out.

A rule may look at a token it leaves, though: an expression ends at one that does not extend
it. There the end of the file does as well, but it is no substitute for the token that ends
a list. So it is told how many tokens are to be left at least.
-/

namespace ScriptLang

namespace Cursor

/-! ## What is consumed -/

/-- Between the cursors these tokens are consumed. -/
structure Passes (c : Cursor) (ts : List Token) (c' : Cursor) : Prop where
  pending : c.pending = ts ++ c'.pending
  lastEnd : c'.lastEnd = ts.foldl (fun _ t => t.span.stop) c.lastEnd
  endSpan : c'.endSpan = c.endSpan

/-- Between the cursors so many tokens are consumed at least. -/
def Upto (n : Nat) (c c' : Cursor) : Prop := ∃ ts, n ≤ ts.length ∧ c.Passes ts c'

variable {c c₁ c' : Cursor} {m n : Nat}

theorem Passes.trans {ts us : List Token} (h : c.Passes ts c₁) (h' : c₁.Passes us c') :
    c.Passes (ts ++ us) c' where
  pending := by rw [h.pending, h'.pending, List.append_assoc]
  lastEnd := by rw [h'.lastEnd, h.lastEnd, List.foldl_append]
  endSpan := h'.endSpan.trans h.endSpan

theorem passes_next (h : c.pending ≠ []) : c.Passes [c.current] c.next := by
  cases hp : c.pending with
  | nil => exact absurd hp h
  | cons t ts => constructor <;> simp [current, peek, next, hp]

namespace Upto

theorem refl (c : Cursor) : Upto 0 c c := ⟨[], Nat.le_refl 0, rfl, rfl, rfl⟩

theorem trans (h : Upto m c c₁) (h' : Upto n c₁ c') : Upto (m + n) c c' := by
  obtain ⟨ts, hm, h⟩ := h
  obtain ⟨us, hn, h'⟩ := h'
  exact ⟨ts ++ us, by rw [List.length_append]; omega, h.trans h'⟩

theorem weaken (h : Upto n c c') (hm : m ≤ n) : Upto m c c' := by
  obtain ⟨ts, hn, h⟩ := h
  exact ⟨ts, Nat.le_trans hm hn, h⟩

theorem length (h : Upto n c c') : c'.pending.length + n ≤ c.pending.length := by
  obtain ⟨ts, hn, h⟩ := h
  rw [h.pending, List.length_append]
  omega

theorem next (c : Cursor) : Upto 0 c c.next := by
  cases hp : c.pending with
  | nil =>
    have hnext : c.next = c := by rw [Cursor.next, hp]
    rw [hnext]
    exact refl c
  | cons t ts => exact ⟨[c.current], Nat.zero_le _, passes_next (by simp [hp])⟩

theorem next_of_kind (h : c.current.kind ≠ .eof) : Upto 1 c c.next :=
  ⟨[c.current], Nat.le_refl 1, passes_next (by rw [pending_eq h]; simp)⟩

end Upto

end Cursor

/-- What a cursor at another place sees of the tokens ahead: all but the last ones, moved. -/
structure Window where
  move : Position → Position
  rest : List Token

/-- The second cursor stands in front of the tokens that the first one stands in front of, as
far as the window goes. Once they have started to read, they have read the same last. -/
structure Cursor.Sees (w : Window) (started : Prop) (c d : Cursor) : Prop where
  pending : ∃ ts, c.pending = ts ++ w.rest ∧ d.pending = ts.map (Token.move w.move)
  lastEnd : started → d.lastEnd = w.move c.lastEnd

namespace Cursor.Sees

variable {w : Window} {s : Prop} {c d : Cursor}

theorem peek (h : c.Sees w s d) {n : Nat} (hn : w.rest.length + n < c.pending.length) :
    d.peek n = (c.peek n).move w.move := by
  obtain ⟨ts, hc, hd⟩ := h.pending
  have hlt : n < ts.length := by
    rw [hc, List.length_append] at hn
    omega
  unfold Cursor.peek
  rw [hc, hd, List.getD_eq_getElem _ _ (by simpa using hlt),
    List.getD_eq_getElem _ _ (by rw [List.length_append]; omega), List.getElem_map,
    List.getElem_append_left hlt]

theorem current (h : c.Sees w s d) (hn : w.rest.length < c.pending.length) :
    d.current = c.current.move w.move := h.peek hn

theorem next (h : c.Sees w s d) (hn : w.rest.length < c.pending.length) :
    c.next.Sees w True d.next := by
  obtain ⟨ts, hc, hd⟩ := h.pending
  cases ts with
  | nil =>
    rw [hc] at hn
    exact absurd hn (Nat.lt_irrefl _)
  | cons t ts =>
    constructor
    · exact ⟨ts, by simp [Cursor.next, hc], by simp [Cursor.next, hd]⟩
    · intro _
      simp [Cursor.next, hc, hd, Token.move, Span.move]

/-- Behind the window is the end of the file. -/
theorem kind_eof (h : c.Sees w s d) (hn : c.pending.length ≤ w.rest.length) :
    d.current.kind = .eof := by
  obtain ⟨ts, hc, hd⟩ := h.pending
  rw [hc, List.length_append] at hn
  obtain rfl := List.length_eq_zero_iff.mp (by omega : ts.length = 0)
  rw [Cursor.current, Cursor.peek, hd]
  rfl

end Cursor.Sees

namespace Parser

variable {α β γ δ : Type}

/-- No fuel any more, or a result and a cursor with a property. -/
def Attains (q : α → Cursor → Prop) (r : EStateM.Result Halt Cursor α) : Prop :=
  (∃ d, r = .error .outOfFuel d) ∨ ∃ a d, r = .ok a d ∧ q a d

/-- If the first rule succeeds at the cursor, it consumes `n` tokens at least. If `m` of the
tokens it leaves are in the window at least, the second rule does the same on what is seen, and
its result is the first one's under `f`. -/
def CarriesAt (w : Window) (s : Prop) (n m : Nat) (f : α → β) (x : Parser α) (y : Parser β)
    (c : Cursor) : Prop :=
  ∀ a c', x c = .ok a c' → c.Upto n c' ∧
    ∀ d, c.Sees w s d → w.rest.length + m ≤ c'.pending.length →
      Attains (fun b d' => b = f a ∧ c'.Sees w True d') (y d)

def Carries (w : Window) (s : Prop) (n m : Nat) (f : α → β) (x : Parser α) (y : Parser β) : Prop :=
  ∀ c, CarriesAt w s n m f x y c

variable {w : Window} {s : Prop} {n m i j : Nat} {f : α → β} {g : γ → δ} {x : Parser α}
  {y : Parser β}

namespace Carries

theorem upto (h : Carries w s n m f x y) {c c' : Cursor} {a : α} (hx : x c = .ok a c') :
    c.Upto n c' := (h c a c' hx).1

theorem pure {a : α} {b : β} (h : b = f a) : Carries w True 0 m f (Pure.pure a) (Pure.pure b) := by
  intro c a' c' hx
  obtain ⟨rfl, rfl⟩ := pure_ok.mp hx
  exact ⟨.refl c', fun d hd _ => .inr ⟨b, d, rfl, h, hd⟩⟩

/-- What does not succeed has nothing to carry. -/
theorem fails (h : ∀ c a c', x c ≠ .ok a c') : Carries w s n m f x y :=
  fun c a c' hx => absurd hx (h c a c')

theorem fail {cause : Cause} {p : Position} : Carries w s n m f (Parser.fail cause p) y :=
  fails fun _ _ _ => fail_ok

theorem unexpected : Carries w s n m f Parser.unexpected y := fails fun _ _ _ => unexpected_ok

/-- A rule that has no fuel does as well as any. -/
theorem outOfFuel (h : Carries w s n m f x y) : Carries w s n m f x Parser.outOfFuel :=
  fun c a c' hx => ⟨(h c a c' hx).1, fun d _ _ => .inl ⟨d, rfl⟩⟩

theorem consuming (h : Carries w s i m f x y) (hn : n ≤ i) : Carries w s n m f x y := by
  intro c a c' hx
  obtain ⟨hupto, hsees⟩ := h c a c' hx
  exact ⟨hupto.weaken hn, hsees⟩

/-- What the second part consumes is left by the first. -/
theorem bind {k : α → Parser γ} {l : β → Parser δ} (hx : Carries w s i m f x y)
    (hk : ∀ a, Carries w True (n - i) j g (k a) (l (f a))) (hm : m ≤ n - i + j) :
    Carries w s n j g (x >>= k) (y >>= l) := by
  intro c a c' h
  obtain ⟨b, c₁, hb, h⟩ := bind_ok.mp h
  obtain ⟨hupto, hsees⟩ := hx c b c₁ hb
  obtain ⟨hupto', hsees'⟩ := hk b c₁ a c' h
  refine ⟨(hupto.trans hupto').weaken (by omega), fun d hd hlength => ?_⟩
  -- What the second part consumes and what it leaves was left by the first.
  have hle := hupto'.length
  rcases hsees d hd (by omega) with ⟨d', hd'⟩ | ⟨_, d', hd', rfl, hs⟩
  · exact .inl ⟨d', bind_of_error l hd'⟩
  · rw [bind_of_ok l hd']
    exact hsees' d' hs hlength

theorem map {k : α → γ} {l : β → δ} (hx : Carries w s n m f x y) (h : ∀ a, l (f a) = g (k a)) :
    Carries w s n m g (k <$> x) (l <$> y) := by
  rw [map_eq_pure_bind, map_eq_pure_bind]
  refine hx.bind (fun a => ?_) (Nat.le_add_left ..)
  rw [Nat.sub_self]
  exact pure (h a)

theorem ite {p q : Prop} [Decidable p] [Decidable q] {x' : Parser α} {y' : Parser β}
    (hpq : q ↔ p) (ht : Carries w s n m f x y) (hf : Carries w s n m f x' y') :
    Carries w s n m f (if p then x else x') (if q then y else y') := by
  simp only [hpq]
  split
  · exact ht
  · exact hf

/-- A tree is made that spans what was read. -/
theorem spanned {p : Position} {k : Span → α} {l : Span → β}
    (h : ∀ s, l (s.move w.move) = f (k s)) :
    Carries w True 0 m f (Parser.spanFrom p >>= fun s => Pure.pure (k s))
      (Parser.spanFrom (w.move p) >>= fun s => Pure.pure (l s)) := by
  intro c a c' hx
  rw [spanFrom_bind] at hx
  obtain ⟨rfl, rfl⟩ := pure_ok.mp hx
  refine ⟨.refl c', fun d hd _ => .inr ⟨_, d, rfl, ?_, hd⟩⟩
  rw [← h, Cursor.spanFrom, hd.lastEnd trivial]
  rfl

/-! ### The next token

It must be in the window, so the rule consumes a token or leaves one.
-/

section

variable (hpos : 0 < n + m)

include hpos

theorem current_bind {k : Token → Parser α} {l : Token → Parser β}
    (hk : ∀ t c, c.current = t → CarriesAt w s n m f (k t) (l (t.move w.move)) c) :
    Carries w s n m f (Parser.current >>= k) (Parser.current >>= l) := by
  intro c a c' hx
  rw [Parser.current_bind] at hx
  obtain ⟨hupto, hsees⟩ := hk c.current c rfl a c' hx
  have hle := hupto.length
  refine ⟨hupto, fun d hd hlength => ?_⟩
  rw [Parser.current_bind, hd.current (by omega)]
  exact hsees d hd hlength

theorem advance_bind {k : Token → Parser α} {l : Token → Parser β}
    (hk : ∀ t, Carries w True n m f (k t) (l (t.move w.move))) :
    Carries w s n m f (Parser.advance >>= k) (Parser.advance >>= l) := by
  intro c a c' hx
  rw [Parser.advance_bind] at hx
  obtain ⟨hupto, hsees⟩ := hk c.current c.next a c' hx
  have hle := hupto.length
  have hnext := (Cursor.Upto.next c).length
  refine ⟨?_, fun d hd hlength => ?_⟩
  · rw [← Nat.zero_add n]
    exact (Cursor.Upto.next c).trans hupto
  · rw [Parser.advance_bind, hd.current (by omega)]
    exact hsees d.next (hd.next (by omega)) hlength

theorem eat_bind (kind : TokenKind) {k : Bool → Parser α} {l : Bool → Parser β}
    (hk : ∀ b, Carries w True n m f (k b) (l b)) :
    Carries w True n m f (Parser.eat kind >>= k) (Parser.eat kind >>= l) := by
  intro c a c' hx
  rw [Parser.eat_bind] at hx
  have hkind : ∀ {d : Cursor}, c.Sees w True d → w.rest.length < c.pending.length →
      (d.current.kind = kind ↔ c.current.kind = kind) := fun hd hlt => by
    rw [hd.current hlt]
    rfl
  by_cases hc : c.current.kind = kind
  · rw [if_pos hc] at hx
    obtain ⟨hupto, hsees⟩ := hk true c.next a c' hx
    have hle := hupto.length
    have hnext := (Cursor.Upto.next c).length
    refine ⟨?_, fun d hd hlength => ?_⟩
    · rw [← Nat.zero_add n]
      exact (Cursor.Upto.next c).trans hupto
    · rw [Parser.eat_bind, if_pos ((hkind hd (by omega)).mpr hc)]
      exact hsees d.next (hd.next (by omega)) hlength
  · rw [if_neg hc] at hx
    obtain ⟨hupto, hsees⟩ := hk false c a c' hx
    have hle := hupto.length
    refine ⟨hupto, fun d hd hlength => ?_⟩
    rw [Parser.eat_bind, if_neg (mt (hkind hd (by omega)).mp hc)]
    exact hsees d hd hlength

end

/-- A token that is asked for by a kind other than the end of the file is consumed. -/
theorem expectNamed {kind : TokenKind} {e : String} (hkind : kind ≠ .eof) :
    Carries w s 1 0 (Token.move w.move) (Parser.expectNamed kind e)
      (Parser.expectNamed kind e) := by
  intro c t c' hx
  obtain ⟨hk, rfl, rfl⟩ := expectNamed_ok.mp hx
  have hupto := Cursor.Upto.next_of_kind (c := c) (hk ▸ hkind)
  have hle := hupto.length
  refine ⟨hupto, fun d hd hlength => .inr ⟨_, d.next, ?_, rfl, hd.next (by omega)⟩⟩
  have hcurrent := hd.current (by omega)
  exact expectNamed_ok.mpr ⟨by rw [hcurrent]; exact hk, hcurrent.symm, rfl⟩

theorem expect {kind : TokenKind} (hkind : kind ≠ .eof) :
    Carries w s 1 0 (Token.move w.move) (Parser.expect kind) (Parser.expect kind) :=
  expectNamed hkind

/-- A part that may be missing. -/
theorem optional {p q : Prop} [Decidable p] [Decidable q] (hpq : q ↔ p)
    (hx : Carries w True i m f x y) {k : Option α → Parser γ} {l : Option β → Parser δ}
    (hk : ∀ a, Carries w True n j g (k a) (l (a.map f))) (hm : m ≤ n - i + j) :
    Carries w True n j g (if p then some <$> x >>= k else Pure.pure none >>= k)
      (if q then some <$> y >>= l else Pure.pure none >>= l) := by
  have hsome : Carries w True i m (Option.map f) (some <$> x) (some <$> y) :=
    hx.map fun _ => rfl
  exact ite hpq (hsome.bind (fun a => (hk a).consuming (Nat.sub_le ..)) hm) (hk none)

theorem optionalNot {p q : Prop} [Decidable p] [Decidable q] (hpq : q ↔ p)
    (hx : Carries w True i m f x y) {k : Option α → Parser γ} {l : Option β → Parser δ}
    (hk : ∀ a, Carries w True n j g (k a) (l (a.map f))) (hm : m ≤ n - i + j) :
    Carries w True n j g (if p then Pure.pure none >>= k else some <$> x >>= k)
      (if q then Pure.pure none >>= l else some <$> y >>= l) := by
  have h := optional (p := ¬ p) (q := ¬ q) (not_congr hpq) hx hk hm
  rwa [ite_not, ite_not] at h

end Carries

namespace CarriesAt

variable {c : Cursor}

/-- A token that is not the end of the file is consumed. -/
theorem advance_bind {k : Token → Parser α} {l : Token → Parser β} (hc : c.current.kind ≠ .eof)
    (hk : ∀ t, Carries w True (n - 1) m f (k t) (l (t.move w.move))) :
    CarriesAt w s n m f (Parser.advance >>= k) (Parser.advance >>= l) c := by
  intro a c' hx
  rw [Parser.advance_bind] at hx
  obtain ⟨hupto, hsees⟩ := hk c.current c.next a c' hx
  have hle := hupto.length
  have hnext := (Cursor.Upto.next_of_kind hc).length
  refine ⟨((Cursor.Upto.next_of_kind hc).trans hupto).weaken (by omega),
    fun d hd hlength => ?_⟩
  rw [Parser.advance_bind, hd.current (by omega)]
  exact hsees d.next (hd.next (by omega)) hlength

/-- The token behind the next one is in the window, too. -/
theorem get_bind {k : Cursor → Parser α} {l : Cursor → Parser β} (hpos : 1 < n + m)
    (hk : ∀ d, (d.peek 1).kind = (c.peek 1).kind → CarriesAt w s n m f (k c) (l d) c) :
    CarriesAt w s n m f (get >>= k) (get >>= l) c := by
  intro a c' hx
  rw [Parser.get_bind] at hx
  obtain ⟨hupto, -⟩ := hk c rfl a c' hx
  have hle := hupto.length
  refine ⟨hupto, fun d hd hlength => ?_⟩
  have hpeek : (d.peek 1).kind = (c.peek 1).kind := by
    rw [hd.peek (by omega)]
    rfl
  rw [Parser.get_bind]
  exact (hk d hpeek a c' hx).2 d hd hlength

end CarriesAt

end Parser

end ScriptLang
