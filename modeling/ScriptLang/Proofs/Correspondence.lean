import ScriptLang.Halt
import ScriptLang.Proofs.Computation

/-!
# Two computations side by side

Two computations correspond if from related states both succeed or both fail, and what
they end with is related again. Corresponding parts make corresponding wholes, so what
two runs have in common follows from what their steps have in common.
-/

namespace ScriptLang

/-- Why an early end came, if it is an answer. -/
def Halt.cause? : Halt → Option Cause
  | .fault f => some f.cause
  | .outOfFuel => none

section

variable {ε ε' σ σ' α α' β β' : Type}

/-- Both computations ended with a result, or both with an error. -/
inductive EndAlike (q : α → α' → σ → σ' → Prop) (e : ε → ε' → σ → σ' → Prop) :
    EStateM.Result ε σ α → EStateM.Result ε' σ' α' → Prop
  | ok {a : α} {b : α'} {s : σ} {t : σ'} : q a b s t → EndAlike q e (.ok a s) (.ok b t)
  | error {d : ε} {d' : ε'} {s : σ} {t : σ'} : e d d' s t → EndAlike q e (.error d s) (.error d' t)

/-- From states that `p` relates both computations end alike. -/
def Corresponds (p : σ → σ' → Prop) (q : α → α' → σ → σ' → Prop) (e : ε → ε' → σ → σ' → Prop)
    (x : EStateM ε σ α) (y : EStateM ε' σ' α') : Prop :=
  ∀ s t, p s t → EndAlike q e (x s) (y t)

variable {p p' : σ → σ' → Prop} {q q' : α → α' → σ → σ' → Prop} {r : β → β' → σ → σ' → Prop}
  {e : ε → ε' → σ → σ' → Prop} {x : EStateM ε σ α} {y : EStateM ε' σ' α'}

/-- What both ends are said to be like may be drawn from each end on its own, too. -/
theorem EndAlike.conclude {u : EStateM.Result ε σ α} {v : EStateM.Result ε' σ' α'}
    (huv : EndAlike q e u v)
    (h : ∀ a b s t, u = .ok a s → v = .ok b t → q a b s t → q' a b s t) : EndAlike q' e u v := by
  cases huv with
  | ok hq => exact .ok (h _ _ _ _ rfl rfl hq)
  | error he => exact .error he

theorem EndAlike.ok_iff {u : EStateM.Result ε σ α} {v : EStateM.Result ε' σ' α'}
    (huv : EndAlike q e u v) : (∃ a s, u = .ok a s) ↔ ∃ b t, v = .ok b t := by
  cases huv with
  | ok => exact ⟨fun _ => ⟨_, _, rfl⟩, fun _ => ⟨_, _, rfl⟩⟩
  | error => exact ⟨nofun, nofun⟩

namespace Corresponds

theorem weaken (hp : ∀ s t, p' s t → p s t) (hq : ∀ a b s t, q a b s t → q' a b s t)
    (h : Corresponds p q e x y) : Corresponds p' q' e x y :=
  fun s t hst => (h s t (hp s t hst)).conclude fun a b s t _ _ => hq a b s t

theorem weakenError {e' : ε → ε' → σ → σ' → Prop} (he : ∀ d d' s t, e d d' s t → e' d d' s t)
    (h : Corresponds p q e x y) : Corresponds p q e' x y := by
  intro s t hst
  have h := h s t hst
  revert h
  generalize x s = u
  generalize y t = v
  rintro (hq | hd)
  · exact .ok hq
  · exact .error (he _ _ _ _ hd)

theorem pure {a : α} {b : α'} (h : ∀ s t, p s t → q a b s t) :
    Corresponds p q e (Pure.pure a : EStateM ε σ α) (Pure.pure b : EStateM ε' σ' α') :=
  fun s t hst => .ok (h s t hst)

theorem throw {d : ε} {d' : ε'} (h : ∀ s t, p s t → e d d' s t) :
    Corresponds p q e (throw d : EStateM ε σ α) (throw d' : EStateM ε' σ' α') :=
  fun s t hst => .error (h s t hst)

theorem modify {f : σ → σ} {g : σ' → σ'} {q : PUnit → PUnit → σ → σ' → Prop}
    (h : ∀ s t, p s t → q ⟨⟩ ⟨⟩ (f s) (g t)) :
    Corresponds p q e (modify f : EStateM ε σ PUnit) (modify g : EStateM ε' σ' PUnit) :=
  fun s t hst => .ok (h s t hst)

theorem bind {f : α → EStateM ε σ β} {g : α' → EStateM ε' σ' β'} (hx : Corresponds p q e x y)
    (hf : ∀ a b, Corresponds (q a b) r e (f a) (g b)) :
    Corresponds p r e (x >>= f) (y >>= g) := by
  intro s t hst
  have h := hx s t hst
  cases hxs : x s with
  | ok a s' =>
    cases hyt : y t with
    | ok b t' =>
      rw [hxs, hyt] at h
      cases h with
      | ok hq =>
        rw [bind_of_ok f hxs, bind_of_ok g hyt]
        exact hf a b s' t' hq
    | error d t' =>
      rw [hxs, hyt] at h
      cases h
  | error d s' =>
    cases hyt : y t with
    | ok b t' =>
      rw [hxs, hyt] at h
      cases h
    | error d' t' =>
      rw [hxs, hyt] at h
      cases h with
      | error he =>
        rw [bind_of_error f hxs, bind_of_error g hyt]
        exact .error he

/-- The states are read, each by its own side. -/
theorem get_bind {f : σ → EStateM ε σ β} {g : σ' → EStateM ε' σ' β'}
    (h : ∀ s t, p s t → EndAlike r e (f s s) (g t t)) :
    Corresponds p r e (get >>= f) (get >>= g) := h

theorem map {f : α → β} {g : α' → β'} (hx : Corresponds p q e x y)
    (h : ∀ a b s t, q a b s t → r (f a) (g b) s t) :
    Corresponds p r e (f <$> x) (g <$> y) := by
  rw [map_eq_pure_bind, map_eq_pure_bind]
  exact hx.bind fun a b => pure (h a b)

/-- Both sides take the same branch. -/
theorem ite {c d : Prop} [Decidable c] [Decidable d] (h : c ↔ d) {x' : EStateM ε σ α}
    {y' : EStateM ε' σ' α'} (ht : c → Corresponds p q e x y) (hf : ¬ c → Corresponds p q e x' y') :
    Corresponds p q e (if c then x else x') (if d then y else y') := by
  by_cases hc : c
  · rw [if_pos hc, if_pos (h.mp hc)]
    exact ht hc
  · rw [if_neg hc, if_neg fun hd => hc (h.mpr hd)]
    exact hf hc

end Corresponds

/-! ## Keeping a relation -/

/-- Both computations keep the relation between their states and give related results. -/
def Parallel (r : σ → σ' → Prop) (e : ε → ε' → σ → σ' → Prop) (v : α → α' → Prop)
    (x : EStateM ε σ α) (y : EStateM ε' σ' α') : Prop :=
  Corresponds r (fun a b s t => v a b ∧ r s t) e x y

end

namespace Parallel

variable {ε ε' σ σ' α α' β β' : Type} {r : σ → σ' → Prop} {e : ε → ε' → σ → σ' → Prop}
  {v : α → α' → Prop} {w : β → β' → Prop} {x : EStateM ε σ α} {y : EStateM ε' σ' α'}

theorem pure {a : α} {b : α'} (h : v a b) :
    Parallel r e v (Pure.pure a : EStateM ε σ α) (Pure.pure b : EStateM ε' σ' α') :=
  Corresponds.pure fun _ _ hst => ⟨h, hst⟩

theorem bind {f : α → EStateM ε σ β} {g : α' → EStateM ε' σ' β'} (hx : Parallel r e v x y)
    (hf : ∀ a b, v a b → Parallel r e w (f a) (g b)) : Parallel r e w (x >>= f) (y >>= g) :=
  Corresponds.bind hx fun a b s t hab => hf a b hab.1 s t hab.2

/-- The results are the same on both sides. -/
theorem bindEq {z : EStateM ε σ α} {z' : EStateM ε' σ' α} {f : α → EStateM ε σ β}
    {g : α → EStateM ε' σ' β'} (hx : Parallel r e Eq z z')
    (hf : ∀ a, Parallel r e w (f a) (g a)) : Parallel r e w (z >>= f) (z' >>= g) :=
  hx.bind fun a _ hab => hab ▸ hf a

theorem modify {f : σ → σ} {g : σ' → σ'} {v : PUnit → PUnit → Prop}
    (h : ∀ s t, r s t → r (f s) (g t)) (hv : v ⟨⟩ ⟨⟩) :
    Parallel r e v (modify f : EStateM ε σ PUnit) (modify g : EStateM ε' σ' PUnit) :=
  Corresponds.modify fun s t hst => ⟨hv, h s t hst⟩

theorem get_bind {f : σ → EStateM ε σ β} {g : σ' → EStateM ε' σ' β'}
    (h : ∀ s t, r s t → Parallel r e w (f s) (g t)) :
    Parallel r e w (get >>= f) (get >>= g) :=
  Corresponds.get_bind fun s t hst => h s t hst s t hst

theorem map {f : α → β} {g : α' → β'} (hx : Parallel r e v x y) (h : ∀ a b, v a b → w (f a) (g b)) :
    Parallel r e w (f <$> x) (g <$> y) :=
  Corresponds.map hx fun a b _ _ hab => ⟨h a b hab.1, hab.2⟩

/-- Both sides take the same branch. -/
theorem ite {c d : Prop} [Decidable c] [Decidable d] (h : c ↔ d) {x' : EStateM ε σ α}
    {y' : EStateM ε' σ' α'} (ht : c → Parallel r e v x y) (hf : ¬ c → Parallel r e v x' y') :
    Parallel r e v (if c then x else x') (if d then y else y') := Corresponds.ite h ht hf

end Parallel

end ScriptLang
