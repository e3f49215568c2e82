import ScriptLang.Proofs.Environment
import ScriptLang.Proofs.Evaluation.Balance
import ScriptLang.Proofs.Tree.Closed

/-!
# Variables of the running call

Names are looked up through all scopes, those of the calls around the running one
included. A closed function finds none of their variables all the same: each name in it
is bound in a scope of the call, or is that of a global, which no other scope binds.
So no scope around a call is changed by it, but the outermost.
-/

namespace ScriptLang

namespace Evaluation

/-- The name means a variable of the running call, or a global, if it means anything. -/
def Own (s : Evaluation) (name : String) : Prop :=
  ∀ i b, s.environment.locate? name = some (i, b) → i = 0 ∨ s.frameBase ≤ i

/-- Names that are known are those of the running call, and only the outermost scope binds
the globals. -/
structure Private (globals known : Set String) (s : Evaluation) : Prop where
  framed : s.Framed
  names : ∀ name ∈ known, s.Own name
  outermost : ∀ i, 0 < i → ∀ name ∈ globals, s.environment.bindingAt i name = none
  functions : ∀ name f, s.functions.find? name = some f → f.Closed globals

/-- The scopes of callers stay as they are. The others keep their names, and none but the
outermost adds that of a global. -/
structure Spares (globals : Set String) (s t : Evaluation) : Prop where
  depth : t.environment.depth = s.environment.depth
  frameBase : t.frameBase = s.frameBase
  functions : t.functions = s.functions
  grows : ∀ i name, (s.environment.bindingAt i name).isSome →
    (t.environment.bindingAt i name).isSome
  outermost : ∀ i, 0 < i → ∀ name ∈ globals, s.environment.bindingAt i name = none →
    t.environment.bindingAt i name = none
  callers : ∀ i, 0 < i → i < s.frameBase → ∀ name,
    t.environment.bindingAt i name = s.environment.bindingAt i name

variable {globals known : Set String} {s t u : Evaluation} {name : String}

@[simp] theorem bindingAt_enterScope (s : Evaluation) (i : Nat) (name : String) :
    s.enterScope.environment.bindingAt i name = s.environment.bindingAt i name :=
  Environment.bindingAt_push ..

theorem depth_leaveScope (hd : t.environment.depth = s.environment.depth + 1)
    (hs : 0 < s.environment.depth) : t.leaveScope.environment.depth = s.environment.depth := by
  change t.environment.pop.depth = _
  rw [Environment.depth_pop _ (by omega), hd]
  omega

theorem bindingAt_leaveScope (hd : t.environment.depth = s.environment.depth + 1)
    (hs : 0 < s.environment.depth) (i : Nat) (name : String) :
    t.leaveScope.environment.bindingAt i name =
      if i < s.environment.depth then t.environment.bindingAt i name else none := by
  change t.environment.pop.bindingAt i name = _
  rw [Environment.bindingAt_pop _ (by omega), hd]
  simp only [Nat.add_lt_add_iff_right]

namespace Spares

theorem refl (s : Evaluation) : Spares globals s s :=
  ⟨rfl, rfl, rfl, fun _ _ => id, fun _ _ _ _ => id, fun _ _ _ _ => rfl⟩

theorem trans (h : Spares globals s t) (h' : Spares globals t u) : Spares globals s u where
  depth := h'.depth.trans h.depth
  frameBase := h'.frameBase.trans h.frameBase
  functions := h'.functions.trans h.functions
  grows i name hs := h'.grows i name (h.grows i name hs)
  outermost i hi name hn hs := h'.outermost i hi name hn (h.outermost i hi name hn hs)
  callers i h0 hi name :=
    (h'.callers i h0 (h.frameBase.symm ▸ hi) name).trans (h.callers i h0 hi name)

/-- What changes nothing but the output and what is reported, signalled or returned. -/
theorem of_eq (he : t.environment = s.environment) (hb : t.frameBase = s.frameBase)
    (hf : t.functions = s.functions) : Spares globals s t := by
  refine ⟨by rw [he], hb, hf, ?_, ?_, ?_⟩ <;> rw [he]
  · exact fun _ _ => id
  · exact fun _ _ _ _ => id
  · exact fun _ _ _ _ => rfl

/-- Names keep what they mean to the running call: the scopes of callers bind no more
than they did. -/
theorem own (h : Spares globals s t) (hn : s.Own name) : t.Own name := by
  intro i b hl
  obtain ⟨hb, hnone⟩ := Environment.locate?_eq_some.mp hl
  refine Classical.or_iff_not_imp_left.mpr fun h0 => Nat.le_of_not_lt fun hlt => ?_
  rw [h.frameBase] at hlt
  have hsome : (s.environment.bindingAt i name).isSome := by
    rw [← h.callers i (Nat.pos_of_ne_zero h0) hlt, hb]
    rfl
  obtain ⟨j, c, hj⟩ := Environment.exists_locate? hsome
  obtain ⟨hc, habove⟩ := Environment.locate?_eq_some.mp hj
  rcases Nat.lt_trichotomy j i with hji | rfl | hij
  · rw [habove i hji] at hsome
    cases hsome
  · have := hn j c hj
    omega
  · have hgrown := h.grows j name (by rw [hc]; rfl)
    rw [hnone j hij] at hgrown
    cases hgrown

end Spares

namespace Private

theorem later (hs : s.Private globals known) (h : Spares globals s t) :
    t.Private globals known where
  framed := by
    unfold Framed
    rw [h.frameBase, h.depth]
    exact hs.framed
  names name hn := h.own (hs.names name hn)
  outermost i hi name hn := h.outermost i hi name hn (hs.outermost i hi name hn)
  functions := by rw [h.functions]; exact hs.functions

theorem depth_pos (hs : s.Private globals known) : 0 < s.environment.depth :=
  Nat.lt_of_le_of_lt (Nat.zero_le _) hs.framed

/-- One more name is known to be that of the running call. -/
theorem learn (hs : s.Private globals known) (hn : s.Own name) :
    s.Private globals (insert name known) where
  framed := hs.framed
  names other ho := by
    rcases ho with rfl | ho
    · exact hn
    · exact hs.names other ho
  outermost := hs.outermost
  functions := hs.functions

/-- A name that the innermost scope binds is that of the running call. -/
theorem own_of_innermost (hs : s.Private globals known)
    (h : (s.environment.bindingAt (s.environment.depth - 1) name).isSome) : s.Own name := by
  intro i b hl
  obtain ⟨-, hnone⟩ := Environment.locate?_eq_some.mp hl
  have hframed : s.frameBase < s.environment.depth := hs.framed
  refine .inr (Nat.le_of_not_lt fun hlt => ?_)
  rw [hnone _ (by omega)] at h
  cases h

/-- A global means a variable of the outermost scope. -/
theorem eq_zero_of_global (hs : s.Private globals known) (hn : name ∈ globals) {i : Nat}
    {b : Binding} (hl : s.environment.locate? name = some (i, b)) : i = 0 := by
  refine Classical.byContradiction fun h0 => ?_
  have hnone := hs.outermost i (Nat.pos_of_ne_zero h0) name hn
  rw [(Environment.locate?_eq_some.mp hl).1] at hnone
  cases hnone

/-- A store goes to a variable of the call, or to a global. -/
theorem spares_update (hn : s.Own name) {v : Value} {e : Environment}
    (hu : s.environment.update name v = .ok e) :
    Spares globals s { s with environment := e } := by
  obtain ⟨i, b, hl, -, hat⟩ := Environment.bindingAt_update hu
  have hi := hn i b hl
  have hb := (Environment.locate?_eq_some.mp hl).1
  refine ⟨Environment.depth_update hu, rfl, rfl, fun j other hj => ?_,
    fun j _ other _ hj => ?_, fun j h0 hlt other => ?_⟩
  · dsimp only
    rw [hat]
    split
    · rfl
    · exact hj
  · dsimp only
    rw [hat, if_neg, hj]
    rintro ⟨rfl, rfl⟩
    rw [hb] at hj
    cases hj
  · dsimp only
    rw [hat, if_neg]
    rintro ⟨rfl, -⟩
    omega

section

variable (v : Value) (type : DeclaredType) (mutable : Bool)

theorem spares_declare (hs : s.Private globals known) (hn : name ∉ globals) :
    Spares globals s { s with environment := s.environment.declare name v type mutable } := by
  have hat := s.environment.bindingAt_bind hs.depth_pos
  have hframed : s.frameBase < s.environment.depth := hs.framed
  refine ⟨Environment.depth_declare .., rfl, rfl, fun i other hi => ?_,
    fun i _ other ho hi => ?_, fun i h0 hlt other => ?_⟩ <;>
    dsimp only [Environment.declare] <;> rw [hat]
  · split
    · rfl
    · exact hi
  · rw [if_neg, hi]
    rintro ⟨-, rfl⟩
    exact hn ho
  · exact if_neg fun h => by omega

/-- What is declared is known. -/
theorem declare (hs : s.Private globals known) (hn : name ∉ globals) :
    Private globals (insert name known)
      { s with environment := s.environment.declare name v type mutable } := by
  have ht := hs.later (hs.spares_declare v type mutable hn)
  exact ht.learn (ht.own_of_innermost
    (s.environment.bindingAt_innermost hs.depth_pos name _))

end

theorem enterScope (hs : s.Private globals known) : s.enterScope.Private globals known where
  framed := hs.framed.enterScope
  names name hn := by
    intro i b hl
    obtain ⟨hb, hnone⟩ := Environment.locate?_eq_some.mp hl
    simp only [bindingAt_enterScope] at hb hnone
    exact hs.names name hn i b (Environment.locate?_eq_some.mpr ⟨hb, hnone⟩)
  outermost i hi name hn := (bindingAt_enterScope ..).trans (hs.outermost i hi name hn)
  functions := hs.functions

theorem spares_leaveScope (hs : s.Private globals known) (h : Spares globals s.enterScope t) :
    Spares globals s t.leaveScope := by
  have hframed : s.frameBase < s.environment.depth := hs.framed
  have hat := bindingAt_leaveScope (s := s) (t := t) h.depth hs.depth_pos
  refine ⟨depth_leaveScope h.depth hs.depth_pos, h.frameBase, h.functions, fun i name hi => ?_,
    fun i h0 name hn hi => ?_, fun i h0 hlt name => ?_⟩
  · rw [hat, if_pos (Environment.lt_depth_of_bindingAt hi)]
    exact h.grows i name (by rwa [bindingAt_enterScope])
  · rw [hat]
    split
    · exact h.outermost i h0 name hn (by rwa [bindingAt_enterScope])
    · rfl
  · rw [hat, if_pos (by omega), h.callers i h0 hlt name, bindingAt_enterScope]

/-- In a call, globals are all that is known. -/
theorem enterFrame (hs : s.Private globals known) : s.enterFrame.Private globals globals where
  framed := s.framed_enterFrame
  names _ hn _ _ hl := .inl (hs.enterScope.eq_zero_of_global hn hl)
  outermost := hs.enterScope.outermost
  functions := hs.functions

/-- A call changes the outermost scope only. -/
theorem spares_leaveFrame (hs : s.Private globals known) (h : Spares globals s.enterFrame t) :
    Spares globals s (t.leaveFrame s.frameBase) ∧ ∀ i, 0 < i → ∀ name,
      (t.leaveFrame s.frameBase).environment.bindingAt i name = s.environment.bindingAt i name := by
  have hat : ∀ i name, (t.leaveFrame s.frameBase).environment.bindingAt i name =
      if i < s.environment.depth then t.environment.bindingAt i name else none :=
    bindingAt_leaveScope (s := s) (t := t) h.depth hs.depth_pos
  have hsame : ∀ i, 0 < i → ∀ name, (t.leaveFrame s.frameBase).environment.bindingAt i name =
      s.environment.bindingAt i name := by
    intro i h0 name
    rw [hat]
    split
    · next hlt => exact (h.callers i h0 hlt name).trans (bindingAt_enterScope ..)
    · next hle => exact (s.environment.bindingAt_of_depth_le name (Nat.le_of_not_lt hle)).symm
  refine ⟨⟨depth_leaveScope h.depth hs.depth_pos, rfl, h.functions, fun i name hi => ?_,
    fun i h0 name _ hi => ?_, fun i h0 _ name => ?_⟩, hsame⟩
  · rw [hat, if_pos (Environment.lt_depth_of_bindingAt hi)]
    exact h.grows i name ((congrArg Option.isSome (bindingAt_enterScope ..)).trans hi)
  · rw [hsame i h0 name, hi]
  · exact hsame i h0 name

end Private

end Evaluation

end ScriptLang
