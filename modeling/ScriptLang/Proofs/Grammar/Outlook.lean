import ScriptLang.Proofs.Grammar.Ahead
import ScriptLang.Proofs.Grammar.Rule
import ScriptLang.Proofs.Tree.Bare

/-!
# What stands behind the end

Two runs of the rules side by side. The second run sees the tokens that the first one sees,
and other ones only where the file ends for the first. No rule consumes the end of the file,
so both runs do the same up to there.

The end of the file may be seen as a semicolon. Then the second run may go on where the first
one fails; but where the first one succeeds, the second one does, too, and it has read at most
the semicolons behind a last statement in addition.
-/

namespace ScriptLang

/-- From the first cursor to the second tokens are consumed, but no end of the file. -/
def Cursor.Precedes (c c' : Cursor) : Prop :=
  ∃ ts, (∀ t ∈ ts, t.kind ≠ .eof) ∧ c.pending = ts ++ c'.pending

namespace Cursor.Precedes

variable {c c₁ c' : Cursor}

theorem refl (c : Cursor) : c.Precedes c := ⟨[], nofun, rfl⟩

theorem trans (h : c.Precedes c₁) (h' : c₁.Precedes c') : c.Precedes c' := by
  obtain ⟨ts, hts, hc⟩ := h
  obtain ⟨us, hus, hc₁⟩ := h'
  exact ⟨ts ++ us, List.forall_mem_append.mpr ⟨hts, hus⟩, by
    rw [hc, hc₁, List.append_assoc]⟩

theorem next (h : c.current.kind ≠ .eof) : c.Precedes c.next := by
  have hcons := Cursor.pending_eq h
  exact ⟨[c.current], List.forall_mem_singleton.mpr h, by rw [hcons]; rfl⟩

end Cursor.Precedes

/-- How the second run sees the tokens ahead of a cursor of the first. -/
structure Outlook where
  see : Cursor → Cursor
  /-- The end of the file may be seen as a semicolon. -/
  lenient : Prop
  /-- The first run stands at the end of the file, the second one behind semicolons there. -/
  Beyond : Cursor → Cursor → Prop
  current (c : Cursor) : (see c).current = c.current ∨
    lenient ∧ c.current.kind = .eof ∧ (see c).current.kind = .semicolon
  second (c : Cursor) : c.current.kind ≠ .eof → ((see c).peek 1).kind = (c.peek 1).kind ∨
    (c.peek 1).kind = .eof ∧ ((see c).peek 1).kind = .semicolon
  next (c : Cursor) : c.current.kind ≠ .eof → (see c).next = see c.next
  lastEnd (c : Cursor) : (see c).lastEnd = c.lastEnd
  ended {c d : Cursor} : Beyond c d → lenient ∧ c.current.kind = .eof ∧
    d.current.kind ≠ .semicolon ∧ d.current.kind ≠ .elseWord
  crosses (c : Cursor) (n : Nat) : c.current.kind = .eof → (see c).current.kind = .semicolon →
    (∃ d, Grammar.semicolons n (see c) = .error .outOfFuel d) ∨
      ∃ d, Grammar.semicolons n (see c) = .ok () d ∧ Beyond c d

namespace Outlook

variable {o : Outlook} {c : Cursor}

theorem current_of_kind (o : Outlook) (h : c.current.kind ≠ .eof) :
    (o.see c).current = c.current :=
  (o.current c).resolve_right fun h' => h h'.2.1

/-- The end of the file and a semicolon are not told apart by what they are not. -/
theorem kind_iff (o : Outlook) (c : Cursor) {k : TokenKind}
    (hk : k ≠ .eof ∧ k ≠ .semicolon) : (o.see c).current.kind = k ↔ c.current.kind = k := by
  rcases o.current c with h | ⟨-, he, hs⟩
  · rw [h]
  · rw [he, hs]
    exact iff_of_false hk.2.symm hk.1.symm

theorem kind_eq {β : Type} (o : Outlook) (c : Cursor) {f : TokenKind → β}
    (hf : f .semicolon = f .eof) : f (o.see c).current.kind = f c.current.kind := by
  rcases o.current c with h | ⟨-, he, hs⟩
  · rw [h]
  · rw [he, hs, hf]

theorem second_eq {β : Type} (o : Outlook) (h : c.current.kind ≠ .eof) {f : TokenKind → β}
    (hf : f .semicolon = f .eof) : f ((o.see c).peek 1).kind = f (c.peek 1).kind := by
  rcases o.second c h with h | ⟨he, hs⟩
  · rw [h]
  · rw [he, hs, hf]

end Outlook

namespace Parser

variable {α β : Type}

/-- The ends of both runs. If the second one is beyond the end of the file, the results are
related by `q`; else they are the same. -/
inductive Kept (o : Outlook) (q : α → α → Prop) (c : Cursor) :
    EStateM.Result Halt Cursor α → EStateM.Result Halt Cursor α → Prop
  | near {a : α} {c' : Cursor} : c.Precedes c' → Kept o q c (.ok a c') (.ok a (o.see c'))
  | beyond {a b : α} {c' d : Cursor} : c.Precedes c' → o.Beyond c' d → q a b →
    Kept o q c (.ok a c') (.ok b d)
  | fault {h : Halt} {c' : Cursor} : c.Precedes c' →
    Kept o q c (.error h c') (.error h (o.see c'))
  | lenient {h : Halt} {c' : Cursor} {r : EStateM.Result Halt Cursor α} : o.lenient →
    Kept o q c (.error h c') r
  | starvedFirst {c' : Cursor} {r : EStateM.Result Halt Cursor α} :
    Kept o q c (.error .outOfFuel c') r
  | starvedSecond {d : Cursor} {r : EStateM.Result Halt Cursor α} :
    Kept o q c r (.error .outOfFuel d)

/-- From this cursor the second rule does what the first one does, as far as it sees the same. -/
def MirrorsAt (o : Outlook) (q : α → α → Prop) (x y : Parser α) (c : Cursor) : Prop :=
  Kept o q c (x c) (y (o.see c))

def Mirrors (o : Outlook) (q : α → α → Prop) (x y : Parser α) : Prop :=
  ∀ c, MirrorsAt o q x y c

/-- The same where the second run is beyond the end of the file. -/
def MirrorsBeyond (o : Outlook) (q : α → α → Prop) (x y : Parser α) : Prop :=
  ∀ c d, o.Beyond c d → Kept o q c (x c) (y d)

/-- A relation for rules that never get beyond the end of the file. -/
abbrev Unreached (_ _ : α) : Prop := False

variable {o : Outlook} {q : α → α → Prop} {r : β → β → Prop} {x y : Parser α}
  {k l : α → Parser β} {c c₁ : Cursor}

theorem Kept.later {u v : EStateM.Result Halt Cursor α} (hc : c.Precedes c₁)
    (h : Kept o q c₁ u v) : Kept o q c u v := by
  cases h with
  | near h => exact .near (hc.trans h)
  | beyond h hb hq => exact .beyond (hc.trans h) hb hq
  | fault h => exact .fault (hc.trans h)
  | lenient h => exact .lenient h
  | starvedFirst => exact .starvedFirst
  | starvedSecond => exact .starvedSecond

theorem Kept.bind (hx : Kept o q c (x c) (y c₁)) (hk : ∀ a, Mirrors o r (k a) (l a))
    (hb : ∀ a b, q a b → MirrorsBeyond o r (k a) (l b)) :
    Kept o r c ((x >>= k) c) ((y >>= l) c₁) := by
  cases hxc : x c with
  | error h c' =>
    rw [bind_of_error k hxc]
    rw [hxc] at hx
    cases hyd : y c₁ with
    | error h' d' =>
      rw [bind_of_error l hyd]
      rw [hyd] at hx
      cases hx with
      | fault h => exact .fault h
      | lenient h => exact .lenient h
      | starvedFirst => exact .starvedFirst
      | starvedSecond => exact .starvedSecond
    | ok b d' =>
      rw [hyd] at hx
      cases hx with
      | lenient h => exact .lenient h
      | starvedFirst => exact .starvedFirst
  | ok a c' =>
    rw [bind_of_ok k hxc]
    rw [hxc] at hx
    cases hyd : y c₁ with
    | error h' d' =>
      rw [hyd] at hx
      cases hx with
      | starvedSecond =>
        rw [bind_of_error l hyd]
        exact .starvedSecond
    | ok b d' =>
      rw [bind_of_ok l hyd]
      rw [hyd] at hx
      cases hx with
      | near h => exact (hk a c').later h
      | beyond h hd hq => exact (hb a b hq c' d' hd).later h

namespace Mirrors

theorem bind (hx : Mirrors o q x y) (hk : ∀ a, Mirrors o r (k a) (l a))
    (hb : ∀ a b, q a b → MirrorsBeyond o r (k a) (l b)) : Mirrors o r (x >>= k) (y >>= l) :=
  fun c => (hx c).bind hk hb

/-- A first part that does not get beyond the end. -/
theorem bindNear (hx : Mirrors o Unreached x y) (hk : ∀ a, Mirrors o r (k a) (l a)) :
    Mirrors o r (x >>= k) (y >>= l) :=
  hx.bind hk fun _ _ => False.elim

theorem pure (a : α) : Mirrors o q (Pure.pure a) (Pure.pure a) := fun c => .near (.refl c)

theorem map (f : α → β) (hx : Mirrors o Unreached x y) : Mirrors o r (f <$> x) (f <$> y) := by
  rw [map_eq_pure_bind, map_eq_pure_bind]
  exact hx.bindNear fun _ => pure _

theorem fail {cause : Cause} {p : Position} :
    Mirrors o q (Parser.fail cause p) (Parser.fail cause p) := fun c => .fault (.refl c)

/-- A rule without fuel gives no answer. -/
theorem starvedFirst : Mirrors o q Parser.outOfFuel y := fun _ => .starvedFirst

theorem starvedSecond : Mirrors o q x Parser.outOfFuel := fun _ => .starvedSecond

theorem ite {p p' : Prop} [Decidable p] [Decidable p'] (hp : p' ↔ p) {x' y' : Parser α}
    (ht : Mirrors o q x y) (hf : Mirrors o q x' y') :
    Mirrors o q (if p then x else x') (if p' then y else y') := by
  simp only [hp]
  split
  · exact ht
  · exact hf

theorem spanFrom {q : Span → Span → Prop} (p : Position) :
    Mirrors o q (Parser.spanFrom p) (Parser.spanFrom p) := by
  intro c
  have hspan : (o.see c).spanFrom p = c.spanFrom p := by
    rw [Cursor.spanFrom, Cursor.spanFrom, o.lastEnd]
  change Kept o q c (.ok (c.spanFrom p) c) (.ok ((o.see c).spanFrom p) (o.see c))
  rw [hspan]
  exact .near (.refl c)

/-- The next token, or the end of the file that is seen as a semicolon. -/
theorem current_bind {k l : Token → Parser α}
    (hk : ∀ c, (o.see c).current = c.current → MirrorsAt o q (k c.current) (l c.current) c)
    (he : ∀ c t, o.lenient → c.current.kind = .eof → t.kind = .semicolon →
      (o.see c).current = t → MirrorsAt o q (k c.current) (l t) c) :
    Mirrors o q (Parser.current >>= k) (Parser.current >>= l) := by
  intro c
  change Kept o q c (k c.current c) (l (o.see c).current (o.see c))
  rcases o.current c with h | ⟨hl, heof, hs⟩
  · rw [h]
    exact hk c h
  · exact he c _ hl heof hs rfl

/-- A choice by the kind of the next token that takes the end of the file for what a semicolon
is. -/
theorem kind_ite (p : TokenKind → Prop) [DecidablePred p] (hp : p .semicolon = p .eof)
    {x' y' : Parser α} (ht : Mirrors o q x y) (hf : Mirrors o q x' y') :
    Mirrors o q (Parser.current >>= fun t => if p t.kind then x else x')
      (Parser.current >>= fun t => if p t.kind then y else y') := by
  intro c
  change Kept o q c ((if p c.current.kind then x else x') c)
    ((if p (o.see c).current.kind then y else y') (o.see c))
  exact ite (iff_of_eq (o.kind_eq c hp)) ht hf c

theorem unexpected : Mirrors o q Parser.unexpected Parser.unexpected :=
  current_bind (fun c _ => fail c) fun _ _ hl _ _ _ => .lenient hl

theorem eat_bind {kind : TokenKind} (hk : kind ≠ .eof ∧ kind ≠ .semicolon)
    {k l : Bool → Parser α} (h : ∀ b, Mirrors o q (k b) (l b)) :
    Mirrors o q (Parser.eat kind >>= k) (Parser.eat kind >>= l) := by
  intro c
  rw [MirrorsAt, Parser.eat_bind, Parser.eat_bind]
  simp only [o.kind_iff c hk]
  split
  · next hc =>
    have hne : c.current.kind ≠ .eof := hc ▸ hk.1
    rw [o.next c hne]
    exact (h true c.next).later (.next hne)
  · exact h false c

theorem expectNamed {q : Token → Token → Prop} {kind : TokenKind}
    (hk : kind ≠ .eof ∧ kind ≠ .semicolon) (e : String) :
    Mirrors o q (Parser.expectNamed kind e) (Parser.expectNamed kind e) := by
  refine current_bind (fun c hc => ?_) fun c t hl he ht _ => ?_
  · unfold MirrorsAt
    split
    · next hkind =>
      have hne : c.current.kind ≠ .eof := hkind ▸ hk.1
      change Kept o q c (.ok c.current c.next) (.ok (o.see c).current (o.see c).next)
      rw [hc, o.next c hne]
      exact .near (.next hne)
    · exact fail c
  · rw [if_neg (by rw [he]; exact hk.1.symm)]
    exact .lenient hl

theorem expect {q : Token → Token → Prop} {kind : TokenKind}
    (hk : kind ≠ .eof ∧ kind ≠ .semicolon) :
    Mirrors o q (Parser.expect kind) (Parser.expect kind) := expectNamed hk _

/-- A part that may be missing. -/
theorem optional {p p' : Prop} [Decidable p] [Decidable p'] (hp : p' ↔ p)
    (hx : Mirrors o Unreached x y) {k l : Option α → Parser β}
    (hk : ∀ a, Mirrors o r (k a) (l a)) :
    Mirrors o r (if p then some <$> x >>= k else Pure.pure none >>= k)
      (if p' then some <$> y >>= l else Pure.pure none >>= l) :=
  ite hp (bindNear (map some hx) hk) (hk none)

/-- A part that the kind of the next token announces. -/
theorem announced (p : TokenKind → Prop) [DecidablePred p] (hp : p .semicolon = p .eof)
    (hx : Mirrors o Unreached x y) {k l : Option α → Parser β}
    (hk : ∀ a, Mirrors o r (k a) (l a)) :
    Mirrors o r
      (Parser.current >>= fun t =>
        if p t.kind then some <$> x >>= k else Pure.pure none >>= k)
      (Parser.current >>= fun t =>
        if p t.kind then some <$> y >>= l else Pure.pure none >>= l) :=
  kind_ite p hp (bindNear (map some hx) hk) (hk none)

/-- A part that is there unless the kind of the next token excludes it. -/
theorem unexcluded (p : TokenKind → Prop) [DecidablePred p] (hp : p .semicolon = p .eof)
    (hx : Mirrors o Unreached x y) {k l : Option α → Parser β}
    (hk : ∀ a, Mirrors o r (k a) (l a)) :
    Mirrors o r
      (Parser.current >>= fun t =>
        if p t.kind then Pure.pure none >>= k else some <$> x >>= k)
      (Parser.current >>= fun t =>
        if p t.kind then Pure.pure none >>= l else some <$> y >>= l) :=
  kind_ite p hp (hk none) (bindNear (map some hx) hk)

end Mirrors

namespace MirrorsAt

/-- A token that is not the end of the file is consumed. -/
theorem advance_bind {k l : Token → Parser α} (hc : c.current.kind ≠ .eof)
    (h : ∀ t, Mirrors o q (k t) (l t)) :
    MirrorsAt o q (Parser.advance >>= k) (Parser.advance >>= l) c := by
  change Kept o q c (k c.current c.next) (l (o.see c).current (o.see c).next)
  rw [o.current_of_kind hc, o.next c hc]
  exact (h _ _).later (.next hc)

theorem position_fail {cause : Cause} (hc : c.current.kind ≠ .eof) :
    MirrorsAt o q (do Parser.fail cause (← Parser.position))
      (do Parser.fail cause (← Parser.position)) c := by
  have hposition : (o.see c).position = c.position :=
    congrArg (·.span.start) (o.current_of_kind hc)
  show Kept o q c (.error (.fault ⟨cause, c.position⟩) c)
    (.error (.fault ⟨cause, (o.see c).position⟩) (o.see c))
  rw [hposition]
  exact .fault (.refl c)

/-- Two tokens, the first of which is not the end of the file and the second one neither. -/
theorem advance_advance_bind {k l : Token → Token → Parser α} (hc : c.current.kind ≠ .eof)
    (hn : (c.peek 1).kind ≠ .eof) (h : ∀ t u, Mirrors o q (k t u) (l t u)) :
    MirrorsAt o q (Parser.advance >>= fun t => Parser.advance >>= k t)
      (Parser.advance >>= fun t => Parser.advance >>= l t) c := by
  change Kept o q c (k c.current c.next.current c.next.next)
    (l (o.see c).current (o.see c).next.current (o.see c).next.next)
  have hn : c.next.current.kind ≠ .eof := by
    rwa [← Cursor.peek_one hc]
  rw [o.current_of_kind hc, o.next c hc, o.current_of_kind hn, o.next _ hn]
  exact (h _ _ _).later ((Cursor.Precedes.next hc).trans (.next hn))

end MirrorsAt

namespace MirrorsBeyond

/-- At the end of the file no token is there that is asked for. -/
theorem expect_bind {kind : TokenKind} (hk : kind ≠ .eof) {k : Token → Parser α} {y : Parser α} :
    MirrorsBeyond o q (Parser.expect kind >>= k) y := by
  intro c d hd
  obtain ⟨hl, he, -⟩ := o.ended hd
  have hfail : ∃ h, Parser.expect kind c = .error h c := by
    rw [Parser.expect, Parser.expectNamed, Parser.current_bind, if_neg (by rw [he]; exact hk.symm)]
    exact ⟨_, rfl⟩
  obtain ⟨h, hfail⟩ := hfail
  rw [bind_of_error k hfail]
  exact .lenient hl

/-- There is no other branch on either side. -/
theorem else_bind {k l : Bool → Parser α} (h : MirrorsBeyond o q (k false) (l false)) :
    MirrorsBeyond o q (Parser.eat .elseWord >>= k) (Parser.eat .elseWord >>= l) := by
  intro c d hd
  obtain ⟨-, he, -, hne⟩ := o.ended hd
  rw [Parser.eat_bind, Parser.eat_bind, if_neg (by rw [he]; decide), if_neg hne]
  exact h c d hd

theorem pure {a b : α} (h : q a b) : MirrorsBeyond o q (Pure.pure a) (Pure.pure b) :=
  fun c _ hd => .beyond (.refl c) hd h

/-- Spans are not compared. -/
theorem spanned {p p' : Position} {f g : Span → α} (h : ∀ s s', q (f s) (g s')) :
    MirrorsBeyond o q (Parser.spanFrom p >>= fun s => Pure.pure (f s))
      (Parser.spanFrom p' >>= fun s => Pure.pure (g s)) :=
  fun c _ hd => .beyond (.refl c) hd (h _ _)

end MirrorsBeyond

end Parser

end ScriptLang
