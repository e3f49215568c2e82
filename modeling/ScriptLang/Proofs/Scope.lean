import Mathlib.Data.List.Forall2
import ScriptLang.Proofs.Environment

/-!
# Environments related scope by scope

Two scopes are related if they bind the same names, each to related bindings. Two
environments are related throughout, or below their innermost scopes only. What is
said here holds of any relation of bindings; only a store has to know it.
-/

namespace ScriptLang

/-- The same names, bound to related bindings. -/
def Scope.Related (r : Binding → Binding → Prop) (a b : Scope) : Prop :=
  ∀ name, Option.Rel r (a.find? name) (b.find? name)

namespace Environment

/-- The outermost scope is there. -/
def Rooted (e : Environment) : Prop := e.scopes ≠ []

theorem rooted_iff {e : Environment} : e.Rooted ↔ 0 < e.depth := by
  rw [Rooted, ← List.length_pos_iff]
  rfl

theorem rooted_pop {e : Environment} (h : e.Rooted) : e.pop.Rooted := by
  obtain ⟨scopes⟩ := e
  match scopes, h with
  | [_], h => exact h
  | _ :: _ :: _, _ => exact List.cons_ne_nil _ _

/-- As many scopes, related one by one. -/
def Within (r : Binding → Binding → Prop) (e e' : Environment) : Prop :=
  List.Forall₂ (Scope.Related r) e.scopes e'.scopes

/-- As many scopes, of which all but the innermost are related one by one. -/
def Below (r : Binding → Binding → Prop) (e e' : Environment) : Prop :=
  e'.depth = e.depth ∧ List.Forall₂ (Scope.Related r) e.scopes.tail e'.scopes.tail

variable {r : Binding → Binding → Prop} {e e' e'' : Environment}

theorem exists_of_rel_some {α β : Type} {q : α → β → Prop} {a : α} {o : Option β}
    (h : Option.Rel q (some a) o) : ∃ b, o = some b ∧ q a b := by
  cases h with
  | some hab => exact ⟨_, rfl, hab⟩

theorem rel_refl (hr : ∀ b, r b b) (b : Option Binding) : Option.Rel r b b := by
  cases b with
  | none => exact .none
  | some b => exact .some (hr b)

theorem rel_trans (hr : ∀ a b c, r a b → r b c → r a c) {a b c : Option Binding}
    (h : Option.Rel r a b) (h' : Option.Rel r b c) : Option.Rel r a c := by
  cases h with
  | none => exact h'
  | some hab =>
    cases h' with
    | some hbc => exact .some (hr _ _ _ hab hbc)

theorem related_refl (hr : ∀ b, r b b) (a : Scope) : Scope.Related r a a :=
  fun name => rel_refl hr (a.find? name)

theorem related_trans (hr : ∀ a b c, r a b → r b c → r a c) {a b c : Scope}
    (h : Scope.Related r a b) (h' : Scope.Related r b c) : Scope.Related r a c :=
  fun name => rel_trans hr (h name) (h' name)

theorem forall₂_refl (hr : ∀ b, r b b) (scopes : List Scope) :
    List.Forall₂ (Scope.Related r) scopes scopes :=
  List.forall₂_same.mpr fun a _ => related_refl hr a

theorem forall₂_trans (hr : ∀ a b c, r a b → r b c → r a c) {as bs cs : List Scope}
    (h : List.Forall₂ (Scope.Related r) as bs) (h' : List.Forall₂ (Scope.Related r) bs cs) :
    List.Forall₂ (Scope.Related r) as cs := by
  induction h generalizing cs with
  | nil => exact h'
  | cons hab _ ih =>
    cases h' with
    | cons hbc htail => exact .cons (related_trans hr hab hbc) (ih htail)

namespace Within

theorem refl (hr : ∀ b, r b b) (e : Environment) : e.Within r e := forall₂_refl hr e.scopes

theorem trans (hr : ∀ a b c, r a b → r b c → r a c) (h : e.Within r e')
    (h' : e'.Within r e'') : e.Within r e'' := forall₂_trans hr h h'

theorem below (h : e.Within r e') : e.Below r e' := by
  obtain ⟨scopes⟩ := e
  obtain ⟨scopes'⟩ := e'
  refine ⟨(List.Forall₂.length_eq h).symm, ?_⟩
  cases h with
  | nil => exact .nil
  | cons _ htail => exact htail

/-- A name means the same, up to the relation. -/
theorem find? (h : e.Within r e') (name : String) : Option.Rel r (e.find? name) (e'.find? name) := by
  obtain ⟨scopes⟩ := e
  obtain ⟨scopes'⟩ := e'
  unfold Environment.find?
  change List.Forall₂ (Scope.Related r) scopes scopes' at h
  induction h with
  | nil => exact .none
  | @cons a b _ _ hab _ ih =>
    have hn := hab name
    rw [List.findSome?_cons, List.findSome?_cons]
    cases ha : a.find? name <;> cases hb : b.find? name <;> rw [ha, hb] at hn <;> cases hn
    · exact ih
    · exact .some ‹_›

end Within

namespace Below

theorem refl (hr : ∀ b, r b b) (e : Environment) : e.Below r e := (Within.refl hr e).below

theorem trans (hr : ∀ a b c, r a b → r b c → r a c) (h : e.Below r e')
    (h' : e'.Below r e'') : e.Below r e'' :=
  ⟨h'.1.trans h.1, forall₂_trans hr h.2 h'.2⟩

theorem rooted (h : e.Below r e') (he : e.Rooted) : e'.Rooted := by
  intro hnil
  have hd : e'.scopes.length = e.scopes.length := h.1
  rw [hnil] at hd
  exact he (List.length_eq_zero_iff.mp hd.symm)

/-- Behind a scope of its own, all scopes are related. -/
theorem within_pop (he : e.Rooted) (h : e.push.Below r e') : e.Within r e'.pop := by
  obtain ⟨scopes⟩ := e
  obtain ⟨scopes'⟩ := e'
  obtain ⟨hd, ht⟩ := h
  cases scopes with
  | nil => exact absurd rfl he
  | cons inner outer =>
    match scopes', hd, ht with
    | _ :: _ :: _, _, ht => exact ht

end Below

/-- A binding put into the innermost scope leaves the others alone. -/
theorem below_bind (hr : ∀ b, r b b) (e : Environment) (name : String) (b : Binding) :
    e.Below r (e.bind name b) := by
  obtain ⟨scopes⟩ := e
  cases scopes with
  | nil => exact Below.refl hr _
  | cons inner outer => exact ⟨rfl, forall₂_refl hr outer⟩

theorem find?_bind {e : Environment} {name other : String} {b : Binding} (he : e.Rooted) :
    (e.bind name b).find? other = if other = name then some b else e.find? other := by
  obtain ⟨scopes⟩ := e
  cases scopes with
  | nil => exact absurd rfl he
  | cons inner outer =>
    rw [bind, Environment.find?, Environment.find?, List.findSome?_cons, List.findSome?_cons,
      NameMap.find?_insert]
    by_cases ho : other = name
    · rw [if_pos ho, if_pos ho]
    · rw [if_neg ho, if_neg ho]

theorem below_declare (hr : ∀ b, r b b) (e : Environment) (name : String) (value : Value)
    (type : DeclaredType) (mutable : Bool) : e.Below r (e.declare name value type mutable) :=
  below_bind hr e name _

theorem related_insert (hr : ∀ b, r b b) {a : Scope} {name : String} {b b' : Binding}
    (hb : a.find? name = some b) (h : r b b') : Scope.Related r a (a.insert name b') := by
  intro other
  rw [NameMap.find?_insert]
  by_cases ho : other = name
  · rw [if_pos ho, ho, hb]
    exact .some h
  · rw [if_neg ho]
    exact related_refl hr a other

/-- A store changes the innermost binding of its name and no other. -/
theorem within_update (hr : ∀ b, r b b) {name : String} {value : Value}
    (hu : e.update name value = .ok e')
    (h : ∀ b, e.find? name = some b → b.mutable = true →
      r b { b with value := value.widen b.type }) : e.Within r e' := by
  obtain ⟨scopes⟩ := e
  unfold update at hu
  split at hu
  · cases hu
  · next b hb =>
    split at hu
    · next hm =>
      cases hu
      have hbb := h b hb hm
      clear h
      unfold Environment.find? at hb
      change List.Forall₂ _ scopes (storeIn name value scopes)
      induction scopes with
      | nil => exact .nil
      | cons inner outer ih =>
        rw [List.findSome?_cons] at hb
        rw [storeIn]
        cases hi : inner.find? name with
        | none =>
          rw [hi] at hb
          exact .cons (related_refl hr inner) (ih hb)
        | some c =>
          rw [hi] at hb
          obtain rfl : c = b := Option.some.inj hb
          exact .cons (related_insert hr hi hbb) (forall₂_refl hr outer)
    · cases hu

end Environment

end ScriptLang
