import ScriptLang.NameMap

/-!
# Names registered one behind the other

Behind entries of which no two share a name, a name means the entry that bears it, so
their order does not matter.
-/

namespace ScriptLang.NameMap

variable {α β : Type}

/-- Puts entries in, one behind the other. -/
def insertAll (m : NameMap α) (es : List (String × α)) : NameMap α :=
  es.foldl (fun m e => m.insert e.1 e.2) m

theorem insertAll_cons (m : NameMap α) (e : String × α) (es : List (String × α)) :
    m.insertAll (e :: es) = (m.insert e.1 e.2).insertAll es := rfl

theorem find?_insertAll_of_ne {es : List (String × α)} {m : NameMap α} {name : String}
    (h : ∀ e ∈ es, e.1 ≠ name) : (m.insertAll es).find? name = m.find? name := by
  induction es generalizing m with
  | nil => rfl
  | cons e es ih =>
    obtain ⟨he, hes⟩ := List.forall_mem_cons.mp h
    rw [insertAll_cons, ih hes, find?_insert, if_neg he.symm]

/-- Behind entries, a name means what one of them says, or what it meant in front of them. -/
theorem find?_insertAll_cases {es : List (String × α)} {m : NameMap α} {name : String} {a : α}
    (h : (m.insertAll es).find? name = some a) : (name, a) ∈ es ∨ m.find? name = some a := by
  induction es generalizing m with
  | nil => exact .inr h
  | cons e es ih =>
    rcases ih h with hes | hm
    · exact .inl (List.mem_cons_of_mem _ hes)
    · rw [find?_insert] at hm
      split at hm
      · next he =>
        cases hm
        exact .inl (he ▸ List.mem_cons_self)
      · exact .inr hm

theorem contains_insertAll {es : List (String × α)} {m : NameMap α} {name : String} :
    (m.insertAll es).contains name = true ↔ m.contains name = true ∨ name ∈ es.map (·.1) := by
  induction es generalizing m with
  | nil => simp [insertAll]
  | cons e es ih =>
    rw [insertAll_cons, ih, contains, find?_insert, List.map_cons, List.mem_cons]
    by_cases he : e.1 = name
    · simp [he]
    · simp [Ne.symm he, contains]

theorem find?_insertAll : ∀ {es : List (String × α)} {m : NameMap α}, (es.map (·.1)).Nodup →
    (∀ e ∈ es, m.find? e.1 = none) → ∀ {name : String} {a : α},
    (m.insertAll es).find? name = some a ↔ (name, a) ∈ es ∨ m.find? name = some a
  | [], m, _, _, name, a => by simp [insertAll]
  | (n, b) :: es, m, hn, hm, name, a => by
    obtain ⟨hb, hn⟩ := List.nodup_cons.mp hn
    obtain ⟨hnew, hm⟩ := List.forall_mem_cons.mp hm
    have hother : ∀ e ∈ es, e.1 ≠ n := fun e he hen => hb (List.mem_map.mpr ⟨e, he, hen⟩)
    have hnone : ∀ e ∈ es, (m.insert n b).find? e.1 = none := fun e he => by
      rw [find?_insert, if_neg (hother e he)]
      exact hm e he
    refine (find?_insertAll hn hnone).trans ?_
    rw [find?_insert, List.mem_cons, Prod.mk.injEq]
    by_cases he : name = n
    · subst he
      rw [if_pos rfl, hnew, Option.some.injEq]
      grind
    · rw [if_neg he]
      grind

/-- What is read of the entries does not depend on their order. -/
theorem find?_insertAll_perm {es es' : List (String × α)} (f : α → β)
    (hn : (es.map (·.1)).Nodup) (hn' : (es'.map (·.1)).Nodup)
    (hp : (es.map fun e => (e.1, f e.2)).Perm (es'.map fun e => (e.1, f e.2))) (name : String) :
    ((empty.insertAll es).find? name).map f = ((empty.insertAll es').find? name).map f := by
  have hfind : ∀ {es : List (String × α)}, (es.map (·.1)).Nodup → ∀ b : β,
      ((empty.insertAll es).find? name).map f = some b ↔
        (name, b) ∈ es.map fun e => (e.1, f e.2) := by
    intro es hn b
    rw [Option.map_eq_some_iff, List.mem_map]
    constructor
    · rintro ⟨a, ha, rfl⟩
      exact ⟨(name, a), ((find?_insertAll hn fun _ _ => rfl).mp ha).resolve_right nofun, rfl⟩
    · rintro ⟨⟨n, a⟩, hmem, he⟩
      cases he
      exact ⟨a, (find?_insertAll hn fun _ _ => rfl).mpr (.inl hmem), rfl⟩
  exact Option.ext fun b => (hfind hn b).trans (hp.mem_iff.trans (hfind hn' b).symm)

end ScriptLang.NameMap
