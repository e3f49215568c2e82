import Mathlib.Data.List.Induction
import ScriptLang.Proofs.Environment

/-!
# Histories of an environment

Operations are performed one behind the other in a scope of their own, and none leaves that
scope. Once it is left itself, with all that were entered since, the scopes around it bind what
they bound. Of a binding at most the value is another: the last one that was stored while its
name meant it.
-/

namespace ScriptLang

/-- The binding with another value. -/
def Binding.store (b : Binding) (value : Value) : Binding :=
  { b with value := value.widen b.type }

namespace Environment

/-! ## Operations -/

inductive Operation where
  | push
  | pop
  | declare (name : String) (value : Value) (type : DeclaredType) (mutable : Bool)
  | update (name : String) (value : Value)

/-- The environment behind an operation. There is no other one behind a refused update. -/
def after (e : Environment) : Operation → Environment
  | .push => e.push
  | .pop => e.pop
  | .declare name value type mutable => e.declare name value type mutable
  | .update name value =>
    match e.update name value with
    | .ok e' => e'
    | .error _ => e

def run (e : Environment) (operations : List Operation) : Environment := operations.foldl after e

/-- The operations, each with the environment it is performed on. -/
def history (e : Environment) : List Operation → List (Environment × Operation)
  | [] => []
  | o :: os => (e, o) :: (e.after o).history os

/-- Whenever a scope is left, there are more than so many. -/
def Above (depth : Nat) (steps : List (Environment × Operation)) : Prop :=
  ∀ step ∈ steps, step.2 = .pop → depth < step.1.depth

/-- The value that a step stores under a name in the scope of an index: that of an update which
is not refused, where the name means its binding in this scope. -/
def storedBy (i : Nat) (name : String) : Environment × Operation → Option Value
  | (e, .update other value) =>
    if other = name ∧ (e.locate? name).map (·.1) = some i ∧ (e.update name value).isOk then
      some value
    else none
  | _ => none

/-- The values that are stored under a name in the scope of an index, in order. -/
def stored (i : Nat) (name : String) (steps : List (Environment × Operation)) : List Value :=
  steps.filterMap (storedBy i name)

/-- The step is no update that is refused. -/
def accepted : Environment × Operation → Bool
  | (e, .update name value) => (e.update name value).isOk
  | _ => true

/-! ## One operation -/

variable {e e' : Environment} {d i : Nat} {name : String}

theorem pop_of_depth_le (h : e.depth ≤ 1) : e.pop = e := by
  obtain ⟨scopes⟩ := e
  match scopes, h with
  | [], _ | [_], _ => rfl

theorem depth_after_update (e : Environment) (name : String) (value : Value) :
    (e.after (.update name value)).depth = e.depth := by
  rw [after]
  split
  · next h => exact depth_update h
  · rfl

theorem le_depth_after {o : Operation} (hd : d ≤ e.depth) (ho : o = .pop → d < e.depth) :
    d ≤ (e.after o).depth := by
  cases o with
  | push => exact Nat.le_succ_of_le hd
  | pop =>
    have hlt := ho rfl
    rcases Nat.lt_or_ge 1 e.depth with h | h
    · have hpop := depth_pop e h
      rw [after, hpop]
      omega
    · omega
  | declare other value type mutable => rwa [after, depth_declare]
  | update other value => rwa [depth_after_update]

theorem bindingAt_declare (hi : i + 1 < e.depth) (other : String) (value : Value)
    (type : DeclaredType) (mutable : Bool) :
    (e.declare other value type mutable).bindingAt i name = e.bindingAt i name := by
  rw [declare, bindingAt_bind e (by omega), if_neg (by omega)]

/-- An update that is not refused stores its value where the name means it. -/
theorem bindingAt_after_update (i : Nat) (name other : String) (value : Value) :
    (e.after (.update other value)).bindingAt i name =
      (e.bindingAt i name).map fun b =>
        (storedBy i name (e, .update other value)).toList.foldl Binding.store b := by
  rw [after, storedBy]
  split
  · next e' h =>
    obtain ⟨j, b, hl, -, hbinding⟩ := bindingAt_update h
    rw [hbinding]
    by_cases hname : name = other
    · subst hname
      by_cases hi : i = j
      · subst hi
        rw [(locate?_eq_some.mp hl).1]
        simp [hl, h, Except.isOk, Except.toBool, Binding.store]
      · simp [hl, hi, Ne.symm hi]
    · simp [hname, Ne.symm hname]
  · next h =>
    by_cases hname : other = name
    · subst hname
      simp [h, Except.isOk, Except.toBool]
    · simp [hname]

/-- In the scopes around the innermost one, an operation changes no more than the value that it
stores. -/
theorem bindingAt_after {o : Operation} (hi : i + 1 < e.depth) (name : String) :
    (e.after o).bindingAt i name =
      (e.bindingAt i name).map fun b => (storedBy i name (e, o)).toList.foldl Binding.store b := by
  have hnothing : (e.bindingAt i name).map
      (fun b => ([] : List Value).foldl Binding.store b) = e.bindingAt i name :=
    Option.map_id'
  cases o with
  | push => exact (bindingAt_push e i name).trans hnothing.symm
  | pop =>
    refine Eq.trans ?_ hnothing.symm
    rw [after, bindingAt_pop e (by omega), if_pos hi]
  | declare other value type mutable =>
    exact (bindingAt_declare hi other value type mutable).trans hnothing.symm
  | update other value => exact bindingAt_after_update i name other value

theorem after_of_refused {value : Value} {r : Refusal} (h : e.update name value = .error r) :
    e.after (.update name value) = e := by
  rw [after, h]

/-! ## Many operations -/

theorem run_cons (e : Environment) (o : Operation) (os : List Operation) :
    e.run (o :: os) = (e.after o).run os := rfl

theorem run_append (e : Environment) (os os' : List Operation) :
    e.run (os ++ os') = (e.run os).run os' := List.foldl_append

theorem map_history (e : Environment) (os : List Operation) : (e.history os).map (·.2) = os := by
  induction os generalizing e with
  | nil => rfl
  | cons o os ih => rw [history, List.map_cons, ih]

/-- Updates that are refused may be left out. -/
theorem run_accepted (e : Environment) (os : List Operation) :
    e.run (((e.history os).filter accepted).map (·.2)) = e.run os := by
  induction os generalizing e with
  | nil => rfl
  | cons o os ih =>
    rw [history, run_cons, ← ih (e.after o)]
    by_cases ha : accepted (e, o) = true
    · rw [List.filter_cons_of_pos ha, List.map_cons, run_cons]
    · rw [List.filter_cons_of_neg ha]
      cases o with
      | update name value =>
        cases hu : e.update name value with
        | ok e' => exact absurd (by rw [accepted, hu]; rfl) ha
        | error r => rw [after_of_refused hu]
      | _ => exact absurd rfl ha

theorem Above.tail {o : Operation} {os : List Operation} (h : Above d (e.history (o :: os))) :
    Above d ((e.after o).history os) := fun step hs => h step (List.mem_cons_of_mem _ hs)

/-- In the scopes that are never left, bindings hold the values that were stored. -/
theorem bindingAt_run (hi : i + 1 < d) (name : String) {os : List Operation} (hd : d ≤ e.depth)
    (hos : Above d (e.history os)) :
    (e.run os).bindingAt i name =
      (e.bindingAt i name).map fun b => (stored i name (e.history os)).foldl Binding.store b := by
  induction os generalizing e with
  | nil => exact Option.map_id'.symm
  | cons o os ih =>
    have hafter := le_depth_after hd (hos (e, o) List.mem_cons_self)
    calc (e.run (o :: os)).bindingAt i name
        = ((e.after o).run os).bindingAt i name := by rw [run_cons]
      _ = ((e.after o).bindingAt i name).map fun b =>
            (stored i name ((e.after o).history os)).foldl Binding.store b := ih hafter hos.tail
      _ = (e.bindingAt i name).map fun b =>
            (stored i name (e.history (o :: os))).foldl Binding.store b := by
          rw [bindingAt_after (by omega), Option.map_map]
          refine congrArg (Option.map · _) (funext fun b => ?_)
          rw [history, stored, stored, List.filterMap_cons]
          cases storedBy i name (e, o) <;> rfl

theorem bindingAt_pop_of_lt (hi : i < e.pop.depth) (name : String) :
    e.pop.bindingAt i name = e.bindingAt i name := by
  rcases Nat.lt_or_ge 1 e.depth with h | h
  · have hpop := depth_pop e h
    rw [bindingAt_pop e h, if_pos (by omega)]
  · rw [pop_of_depth_le h]

theorem depth_pop_le (e : Environment) : e.pop.depth ≤ e.depth := by
  rcases Nat.lt_or_ge 1 e.depth with h | h
  · rw [depth_pop e h]
    exact Nat.sub_le _ _
  · exact Nat.le_of_eq (congrArg depth (pop_of_depth_le h))

/-- However many scopes are left, those that are still there stay as they are. -/
theorem bindingAt_pops {k : Nat} (hi : i < (e.run (.replicate k .pop)).depth) (name : String) :
    i < e.depth ∧ (e.run (.replicate k .pop)).bindingAt i name = e.bindingAt i name := by
  induction k generalizing e with
  | zero => exact ⟨hi, rfl⟩
  | succ k ih =>
    obtain ⟨hlt, hpops⟩ := ih (e := e.pop) hi
    exact ⟨Nat.lt_of_lt_of_le hlt (depth_pop_le e), hpops.trans (bindingAt_pop_of_lt hlt name)⟩

/-! ## Names -/

/-- Where bindings differ in what they hold only, names mean those of the same scopes. -/
theorem locate?_of_bindingAt {f : Nat → String → Binding → Binding}
    (h : ∀ i name, e'.bindingAt i name = (e.bindingAt i name).map (f i name)) (name : String) :
    e'.locate? name = (e.locate? name).map fun (i, b) => (i, f i name b) := by
  cases hl : e.locate? name with
  | some p =>
    obtain ⟨i, b⟩ := p
    obtain ⟨hb, hnone⟩ := locate?_eq_some.mp hl
    refine locate?_eq_some.mpr ⟨by rw [h, hb]; rfl, fun j hj => ?_⟩
    rw [h, hnone j hj]
    rfl
  | none =>
    cases hl' : e'.locate? name with
    | none => rfl
    | some p =>
      have hb := (locate?_eq_some.mp hl').1
      have hsome : (e.bindingAt p.1 name).isSome := by
        rw [h] at hb
        obtain ⟨b, hb, -⟩ := Option.map_eq_some_iff.mp hb
        exact Option.isSome_of_eq_some hb
      obtain ⟨j, b, hj⟩ := exists_locate? hsome
      rw [hl] at hj
      cases hj

/-- Storing values leaves the declaration as it is, and the last of them in the binding. -/
theorem foldl_store (b : Binding) (values : List Value) :
    values.foldl Binding.store b =
      { b with value := (values.getLast?.map (·.widen b.type)).getD b.value } := by
  induction values using List.reverseRecOn with
  | nil => rfl
  | append_singleton values v ih =>
    rw [List.foldl_append, ih, List.getLast?_append]
    rfl

/-- What a history in a scope of its own leaves of the environment in front of the scope. -/
structure Resumes (e : Environment) (steps : List (Environment × Operation)) (e' : Environment) :
    Prop where
  depth : e'.depth = e.depth
  /-- Each scope binds the same names, with their types and as mutable as they were. -/
  declared : ∀ i name, (e'.bindingAt i name).map (fun b => (b.type, b.mutable)) =
    (e.bindingAt i name).map fun b => (b.type, b.mutable)
  /-- Each name means its binding in the same scope. -/
  resolved : ∀ name, (e'.locate? name).map (·.1) = (e.locate? name).map (·.1)
  /-- All ways to look a name up tell of one binding. -/
  agreed : ∀ name, e'.find? name = (e'.locate? name).map (·.2) ∧
    e'.typeOf? name = (e'.locate? name).map (·.2.type)
  /-- A binding holds the last value that was stored in it, as its type has it, or what it held. -/
  last : ∀ i name b, e.bindingAt i name = some b → ∃ b', e'.bindingAt i name = some b' ∧
    b'.value = ((stored i name steps).getLast?.map (·.widen b.type)).getD b.value
  /-- A refused update changes nothing. -/
  refused : ∀ t name value r, (t, .update name value) ∈ steps →
    t.update name value = .error r → t.after (.update name value) = t
  /-- Nothing is different without the refused updates. -/
  accepted : e.push.run ((steps.filter accepted).map (·.2)) = e.push.run (steps.map (·.2))

/-- Behind a scope that is entered, whatever is done in it, and the scopes that are left until
there are as many as before, the environment goes on as it was but for the values stored. -/
theorem resumes_of_above {operations : List Operation} {k : Nat}
    (h : Above e.push.depth (e.push.history operations))
    (hk : (e.push.run (operations ++ .replicate k .pop)).depth = e.depth) :
    e.Resumes (e.push.history operations) (e.push.run (operations ++ .replicate k .pop)) := by
  have hbindings : ∀ i name, (e.push.run (operations ++ .replicate k .pop)).bindingAt i name =
      (e.bindingAt i name).map fun b =>
        (stored i name (e.push.history operations)).foldl Binding.store b := by
    intro i name
    rcases Nat.lt_or_ge i e.depth with hi | hi
    · have hpops := bindingAt_pops (e := e.push.run operations) (k := k) (i := i)
        (by rw [← run_append, hk]; exact hi) name
      rw [run_append, hpops.2]
      rw [bindingAt_run (Nat.succ_lt_succ hi) name (Nat.le_refl _) h, bindingAt_push]
    · rw [bindingAt_of_depth_le _ name (by rw [hk]; exact hi), bindingAt_of_depth_le e name hi]
      rfl
  refine ⟨hk, fun i name => ?_, fun name => ?_, fun name => ?_, fun i name b hb => ?_,
    fun t name value r _ hr => after_of_refused hr, ?_⟩
  · rw [hbindings, Option.map_map]
    exact congrArg (Option.map · _) (funext fun b => by rw [Function.comp, foldl_store])
  · rw [locate?_of_bindingAt hbindings, Option.map_map]
    rfl
  · refine ⟨find?_eq_locate? _ name, ?_⟩
    rw [typeOf?, find?_eq_locate?, Option.map_map]
    rfl
  · rw [hbindings, hb]
    exact ⟨_, rfl, congrArg Binding.value (foldl_store b _)⟩
  · rw [run_accepted, map_history]

/-- A name that is hidden for a while, and one that must not be stored under. -/
theorem resumes_of_above_hidden :
    let e := (Environment.new.declare "x" (.integer 1) .int true).declare "y" (.integer 2) .int false
    let operations : List Operation := [.update "x" (.integer 3),
      .declare "x" (.integer 9) .int true, .push, .update "x" (.integer 8),
      .update "y" (.integer 5), .pop]
    let e' := e.push.run (operations ++ .replicate 1 .pop)
    Above e.push.depth (e.push.history operations) ∧ e'.depth = e.depth ∧
      e.Resumes (e.push.history operations) e' ∧
      e'.find? "x" = some ⟨.integer 3, .int, true⟩ ∧
      e'.find? "y" = some ⟨.integer 2, .int, false⟩ := by
  intro e operations e'
  have habove : Above e.push.depth (e.push.history operations) := by
    simp only [Above, operations, history, List.forall_mem_cons]
    exact ⟨nofun, nofun, nofun, nofun, nofun, fun _ => by decide, nofun⟩
  exact ⟨habove, rfl, resumes_of_above habove rfl, rfl, rfl⟩

end Environment

end ScriptLang
