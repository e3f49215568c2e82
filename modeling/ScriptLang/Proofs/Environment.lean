import ScriptLang.Environment

/-!
# Scopes of an environment

How many scopes each operation leaves, what they bind, and what names mean behind an
update.
-/

namespace ScriptLang.Environment

variable (e : Environment)

/-- The outermost scope is never left. -/
theorem depth_pop (h : 1 < e.depth) : e.pop.depth = e.depth - 1 := by
  obtain ⟨scopes⟩ := e
  match scopes, h with
  | _ :: _ :: _, _ => rfl

@[simp] theorem depth_bind (name : String) (b : Binding) : (e.bind name b).depth = e.depth := by
  obtain ⟨scopes⟩ := e
  cases scopes <;> rfl

@[simp] theorem depth_declare (name : String) (value : Value) (type : DeclaredType)
    (mutable : Bool) : (e.declare name value type mutable).depth = e.depth :=
  depth_bind e name _

theorem length_storeIn (name : String) (value : Value) (scopes : List Scope) :
    (storeIn name value scopes).length = scopes.length := by
  induction scopes with
  | nil => rfl
  | cons inner outer ih =>
    rw [storeIn]
    split
    · rfl
    · rw [List.length_cons, ih, List.length_cons]

theorem depth_update {e e' : Environment} {name : String} {value : Value}
    (h : e.update name value = .ok e') : e'.depth = e.depth := by
  unfold update at h
  split at h
  · cases h
  · split at h
    · cases h
      exact length_storeIn name value e.scopes
    · cases h

theorem find?_storeIn (name other : String) (value : Value) (scopes : List Scope) :
    find? ⟨storeIn name value scopes⟩ other =
      if other = name then
        (find? ⟨scopes⟩ name).map fun b => { b with value := value.widen b.type }
      else find? ⟨scopes⟩ other := by
  unfold find?
  induction scopes with
  | nil => simp [storeIn]
  | cons inner outer ih =>
    rw [storeIn]
    split
    · next b hb =>
      by_cases ho : other = name
      · simp [ho, hb, NameMap.find?_insert]
      · simp [ho, List.findSome?_cons, NameMap.find?_insert]
    · next hb =>
      rw [List.findSome?_cons]
      by_cases ho : other = name
      · rw [if_pos ho] at ih ⊢
        rw [List.findSome?_cons, ho, hb, ← ih, ho]
      · rw [if_neg ho] at ih ⊢
        rw [List.findSome?_cons, ih]

/-- An update succeeds on `var` bindings, and changes the value of the one it names. -/
theorem find?_update {e e' : Environment} {name : String} {value : Value}
    (h : e.update name value = .ok e') : ∃ b, e.find? name = some b ∧ b.mutable ∧
      ∀ other, e'.find? other =
        if other = name then some { b with value := value.widen b.type } else e.find? other := by
  unfold update at h
  split at h
  · cases h
  · next b hb =>
    split at h
    · next hm =>
      cases h
      refine ⟨b, hb, hm, fun other => ?_⟩
      rw [find?_storeIn, hb]
      rfl
    · cases h

/-! ## Scopes by index -/

/-- The binding of a name in the scope with so many scopes outside of it. -/
def bindingIn (i : Nat) (name : String) : List Scope → Option Binding
  | [] => none
  | inner :: outer => if i = outer.length then inner.find? name else bindingIn i name outer

/-- The binding of a name in the scope of an index; the globals have index 0. -/
def bindingAt (e : Environment) (i : Nat) (name : String) : Option Binding :=
  bindingIn i name e.scopes

theorem bindingIn_of_length_le {i : Nat} (name : String) {scopes : List Scope}
    (h : scopes.length ≤ i) : bindingIn i name scopes = none := by
  induction scopes with
  | nil => rfl
  | cons inner outer ih =>
    rw [List.length_cons] at h
    rw [bindingIn, if_neg (by omega), ih (by omega)]

theorem bindingAt_of_depth_le {i : Nat} (name : String) (h : e.depth ≤ i) :
    e.bindingAt i name = none := bindingIn_of_length_le name h

theorem lt_length_of_bindingIn {i : Nat} {name : String} {b : Binding} {scopes : List Scope}
    (h : bindingIn i name scopes = some b) : i < scopes.length := by
  refine Nat.lt_of_not_le fun hle => ?_
  rw [bindingIn_of_length_le name hle] at h
  cases h

theorem lt_depth_of_bindingAt {e : Environment} {i : Nat} {name : String}
    (h : (e.bindingAt i name).isSome) : i < e.depth := by
  obtain ⟨b, hb⟩ := Option.isSome_iff_exists.mp h
  exact lt_length_of_bindingIn hb

/-- A name means its binding of the greatest index. -/
theorem locateIn_eq_some {name : String} {i : Nat} {b : Binding} {scopes : List Scope} :
    locateIn name scopes = some (i, b) ↔
      bindingIn i name scopes = some b ∧ ∀ j, i < j → bindingIn j name scopes = none := by
  induction scopes with
  | nil => exact ⟨nofun, nofun⟩
  | cons inner outer ih =>
    rw [locateIn]
    cases hi : inner.find? name with
    | none =>
      have hsame (j : Nat) : bindingIn j name (inner :: outer) = bindingIn j name outer := by
        rw [bindingIn, hi]
        split
        · exact (bindingIn_of_length_le name (by omega)).symm
        · rfl
      simp only [hsame]
      exact ih
    | some c =>
      constructor
      · intro h
        cases h
        refine ⟨by rw [bindingIn, if_pos rfl, hi], fun j hj => ?_⟩
        exact bindingIn_of_length_le name (Nat.succ_le_of_lt hj)
      · rintro ⟨hb, hnone⟩
        by_cases ho : i = outer.length
        · rw [bindingIn, if_pos ho, hi] at hb
          rw [ho, Option.some.inj hb]
        · rw [bindingIn, if_neg ho] at hb
          have hlast := hnone outer.length (lt_length_of_bindingIn hb)
          rw [bindingIn, if_pos rfl, hi] at hlast
          cases hlast

theorem locate?_eq_some {e : Environment} {name : String} {i : Nat} {b : Binding} :
    e.locate? name = some (i, b) ↔
      e.bindingAt i name = some b ∧ ∀ j, i < j → e.bindingAt j name = none := locateIn_eq_some

/-- A name means something if a scope binds it. -/
theorem exists_locate? {e : Environment} {name : String} {i : Nat}
    (h : (e.bindingAt i name).isSome) : ∃ j b, e.locate? name = some (j, b) := by
  obtain ⟨scopes⟩ := e
  change (bindingIn i name scopes).isSome at h
  change ∃ j b, locateIn name scopes = some (j, b)
  induction scopes with
  | nil => cases h
  | cons inner outer ih =>
    rw [locateIn]
    cases hi : inner.find? name with
    | some b => exact ⟨_, b, rfl⟩
    | none =>
      rw [bindingIn, hi] at h
      split at h
      · cases h
      · exact ih h

@[simp] theorem bindingAt_push (i : Nat) (name : String) :
    e.push.bindingAt i name = e.bindingAt i name := by
  change (if i = e.scopes.length then none else bindingIn i name e.scopes) = _
  split
  · next h => exact (bindingIn_of_length_le name (Nat.le_of_eq h.symm)).symm
  · rfl

/-- Leaving a scope, those outside of it stay. -/
theorem bindingAt_pop (h : 1 < e.depth) (i : Nat) (name : String) :
    e.pop.bindingAt i name = if i + 1 < e.depth then e.bindingAt i name else none := by
  obtain ⟨scopes⟩ := e
  match scopes, h with
  | _ :: outer :: rest, _ =>
    change bindingIn i name (outer :: rest) = if i + 1 < rest.length + 1 + 1 then
      if i = rest.length + 1 then _ else bindingIn i name (outer :: rest) else none
    split
    · exact (if_neg (by omega)).symm
    · exact bindingIn_of_length_le name (by rw [List.length_cons]; omega)

/-- A declaration binds its name in the innermost scope. -/
theorem bindingAt_bind (he : 0 < e.depth) (i : Nat) (name other : String) (b : Binding) :
    (e.bind name b).bindingAt i other =
      if i + 1 = e.depth ∧ other = name then some b else e.bindingAt i other := by
  obtain ⟨scopes⟩ := e
  cases scopes with
  | nil => exact absurd he (Nat.lt_irrefl 0)
  | cons inner outer =>
    change (if i = outer.length then (inner.insert name b).find? other
      else bindingIn i other outer) = if i + 1 = outer.length + 1 ∧ other = name then some b
        else if i = outer.length then inner.find? other else bindingIn i other outer
    rw [NameMap.find?_insert]
    by_cases hi : i = outer.length <;> simp [hi]

theorem bindingAt_innermost (he : 0 < e.depth) (name : String) (b : Binding) :
    ((e.bind name b).bindingAt ((e.bind name b).depth - 1) name).isSome := by
  rw [e.bindingAt_bind he, depth_bind, if_pos ⟨by omega, rfl⟩]
  rfl

theorem bindingIn_storeIn {name : String} {value : Value} {i : Nat} {b : Binding}
    {scopes : List Scope} (h : locateIn name scopes = some (i, b)) (j : Nat) (other : String) :
    bindingIn j other (storeIn name value scopes) =
      if j = i ∧ other = name then some { b with value := value.widen b.type }
      else bindingIn j other scopes := by
  induction scopes with
  | nil => cases h
  | cons inner outer ih =>
    rw [locateIn] at h
    rw [storeIn]
    cases hi : inner.find? name with
    | none =>
      rw [hi] at h
      have hlt := lt_length_of_bindingIn (locateIn_eq_some.mp h).1
      dsimp only
      rw [bindingIn, length_storeIn, ih h, bindingIn]
      by_cases hj : j = outer.length
      · rw [if_pos hj, if_pos hj, if_neg (by omega)]
      · rw [if_neg hj, if_neg hj]
    | some c =>
      rw [hi] at h
      cases h
      dsimp only
      rw [bindingIn, bindingIn, NameMap.find?_insert]
      by_cases hj : j = outer.length <;> simp [hj]

/-- An update changes the value of what its name means, and nothing else. -/
theorem bindingAt_update {e e' : Environment} {name : String} {value : Value}
    (h : e.update name value = .ok e') : ∃ i b, e.locate? name = some (i, b) ∧ b.mutable ∧
      ∀ j other, e'.bindingAt j other =
        if j = i ∧ other = name then some { b with value := value.widen b.type }
        else e.bindingAt j other := by
  unfold update at h
  split at h
  · cases h
  · next b hb =>
    rw [find?_eq_locate?] at hb
    obtain ⟨⟨i, c⟩, hl, rfl⟩ := Option.map_eq_some_iff.mp hb
    split at h
    · next hm =>
      cases h
      exact ⟨i, c, hl, hm, bindingIn_storeIn hl⟩
    · cases h

end ScriptLang.Environment
