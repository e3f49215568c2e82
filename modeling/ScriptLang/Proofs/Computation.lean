/-!
# Computations on a state

How a computation ends follows from how its parts end. Parsing, evaluation and
generation are all computations of this kind.
-/

namespace ScriptLang

variable {ε σ α β : Type} {x y : EStateM ε σ α} {f : α → EStateM ε σ β} {g : α → β} {s t u : σ}
  {a : α} {b : β} {e : ε}

theorem bind_of_ok (f : α → EStateM ε σ β) (h : x s = .ok a t) : (x >>= f) s = f a t := by
  change EStateM.bind x f s = _
  rw [EStateM.bind, h]

theorem bind_of_error (f : α → EStateM ε σ β) (h : x s = .error e t) :
    (x >>= f) s = .error e t := by
  change EStateM.bind x f s = _
  rw [EStateM.bind, h]

/-- A computation goes on from a result alone, wherever that comes from. -/
theorem bind_congr_left (f : α → EStateM ε σ β) (h : x s = y t) :
    (x >>= f) s = (y >>= f) t := by
  change EStateM.bind x f s = EStateM.bind y f t
  rw [EStateM.bind, EStateM.bind, h]

/-- Reading the state hands it on. -/
theorem get_bind (f : σ → EStateM ε σ α) (s : σ) : (get >>= f) s = f s s := rfl

theorem map_of_ok (h : x s = .ok a t) : (g <$> x) s = .ok (g a) t := by
  change EStateM.map g x s = _
  rw [EStateM.map, h]

theorem map_of_error (h : x s = .error e t) : (g <$> x) s = .error e t := by
  change EStateM.map g x s = _
  rw [EStateM.map, h]

theorem bind_ok : (x >>= f) s = .ok b u ↔ ∃ a t, x s = .ok a t ∧ f a t = .ok b u := by
  cases h : x s with
  | ok a t =>
    rw [bind_of_ok f h]
    simp only [EStateM.Result.ok.injEq]
    grind
  | error e t =>
    rw [bind_of_error f h]
    simp

theorem bind_error : (x >>= f) s = .error e u ↔
    x s = .error e u ∨ ∃ a t, x s = .ok a t ∧ f a t = .error e u := by
  cases h : x s with
  | ok a t =>
    rw [bind_of_ok f h]
    simp only [EStateM.Result.ok.injEq]
    grind
  | error e' t =>
    rw [bind_of_error f h]
    simp

theorem map_ok : (g <$> x) s = .ok b t ↔ ∃ a, x s = .ok a t ∧ b = g a := by
  cases h : x s with
  | ok a u =>
    rw [map_of_ok h]
    simp only [EStateM.Result.ok.injEq]
    grind
  | error e u =>
    rw [map_of_error h]
    simp

theorem pure_ok : (pure a : EStateM ε σ α) s = .ok c t ↔ c = a ∧ t = s := by
  change EStateM.Result.ok a s = _ ↔ _
  simp [eq_comm]

/-- A result that passes a test is there. -/
theorem exists_of_any {ε α : Type} {x : Except ε α} {p : α → Bool}
    (h : x.toOption.any p = true) : ∃ a, x = .ok a ∧ p a = true := by
  cases x with
  | error e => cases h
  | ok a => exact ⟨a, rfl, h⟩

end ScriptLang
