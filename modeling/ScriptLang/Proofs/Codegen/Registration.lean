import ScriptLang.Codegen.Program
import ScriptLang.Proofs.Codegen.Parallel
import ScriptLang.Proofs.Registration

/-!
# What registration leaves

Functions become known, declarations of the top level get cells, and constants are collected.
Each of these changes its own part of the state, and none can fail: registration ends without a
result only if no function is `main`.
-/

namespace ScriptLang

/-- What global names mean behind a statement of the top level: a declaration changes its own
name, to its own cell. -/
def TopLevelStmt.rebound (globals : NameMap Slot) (t : TopLevelStmt) : NameMap Slot :=
  match t.stmt, t.cell with
  | .declare name .., some cell => globals.insert name cell
  | _, _ => globals

namespace Gen

variable {g g' : Generator}

/-! ## Functions -/

/-- What is known of functions, by their names. -/
def signed (fs : List Function) : List (String × Signature) :=
  fs.map fun f => (f.name, ⟨symbolOf f.name, f⟩)

/-- What is reported of functions whose names are known already. -/
def replacements (known : NameMap Signature) : List Function → List Fault
  | [] => []
  | f :: fs =>
    let rest := replacements (known.insert f.name ⟨symbolOf f.name, f⟩) fs
    if known.contains f.name then ⟨.functionAlreadyDeclared f.name, f.span.start⟩ :: rest else rest

/-- The state in which functions are known on top of those that were. -/
def knowing (fs : List Function) (g : Generator) : Generator :=
  { g with
    signatures := g.signatures.insertAll (signed fs)
    diagnostics := g.diagnostics ++ replacements g.signatures fs }

theorem registerFunctions_eq : ∀ (fs : List Function) (g : Generator),
    registerFunctions fs g = .ok () (knowing fs g)
  | [], g => by
    rw [knowing, replacements, List.append_nil]
    rfl
  | f :: fs, g => by
    rw [registerFunctions, get_bind, knowing, replacements]
    dsimp only
    split
    · refine (registerFunctions_eq fs _).trans ?_
      rw [knowing, List.append_assoc]
      rfl
    · exact registerFunctions_eq fs _

theorem mem_replacements {known : NameMap Signature} {fs : List Function} {fault : Fault}
    (h : fault ∈ replacements known fs) :
    ∃ f ∈ fs, fault = ⟨.functionAlreadyDeclared f.name, f.span.start⟩ := by
  induction fs generalizing known with
  | nil => cases h
  | cons f fs ih =>
    rw [replacements] at h
    split at h
    · rcases List.mem_cons.mp h with rfl | h
      · exact ⟨f, List.mem_cons_self, rfl⟩
      · exact (ih h).imp fun _ hf => ⟨List.mem_cons_of_mem _ hf.1, hf.2⟩
    · exact (ih h).imp fun _ hf => ⟨List.mem_cons_of_mem _ hf.1, hf.2⟩

/-- Functions with names of their own replace none. -/
theorem replacements_of_nodup {known : NameMap Signature} {fs : List Function}
    (hn : (fs.map (·.name)).Nodup) (h : ∀ f ∈ fs, known.contains f.name = false) :
    replacements known fs = [] := by
  induction fs generalizing known with
  | nil => rfl
  | cons f fs ih =>
    obtain ⟨hf, hn⟩ := List.nodup_cons.mp hn
    obtain ⟨hnew, h⟩ := List.forall_mem_cons.mp h
    rw [replacements, hnew]
    refine ih hn fun f' hf' => ?_
    rw [NameMap.contains, NameMap.find?_insert,
      if_neg fun he => hf (List.mem_map.mpr ⟨f', hf', he⟩)]
    exact h f' hf'

theorem map_fst_signed (fs : List Function) : (signed fs).map (·.1) = fs.map (·.name) :=
  List.map_map

theorem contains_signed {known : NameMap Signature} {fs : List Function} {name : String} :
    (known.insertAll (signed fs)).contains name = true ↔
      known.contains name = true ∨ ∃ f ∈ fs, f.name = name := by
  rw [NameMap.contains_insertAll, map_fst_signed, List.mem_map]

/-- A name means the last function that bears it. -/
theorem find?_signed {known : NameMap Signature} {fs : List Function} {f : Function}
    (hf : f ∈ lastOfName fs) :
    (known.insertAll (signed fs)).find? f.name = some ⟨symbolOf f.name, f⟩ := by
  induction fs generalizing known with
  | nil => cases hf
  | cons f' fs ih =>
    unfold lastOfName at hf
    split at hf
    · exact ih hf
    · next hany =>
      rcases List.mem_cons.mp hf with rfl | hf
      · have hne : ∀ e ∈ signed fs, e.1 ≠ f.name := fun e he hen => by
          obtain ⟨f', hf', rfl⟩ := List.mem_map.mp he
          exact hany (List.any_eq_true.mpr ⟨f', hf', decide_eq_true hen⟩)
        refine (NameMap.find?_insertAll_of_ne hne).trans ?_
        rw [NameMap.find?_insert, if_pos rfl]
      · exact ih hf

/-! ## Cells -/

/-- The name a statement declares. -/
def declared? : Stmt → Option String
  | .declare name _ _ _ _ => some name
  | _ => none

/-- The names of the cells for names that are declared one behind the other. -/
def cellNames (seen : List String) : List String → List String
  | [] => []
  | name :: rest => cellName name (seen.count name) :: cellNames (name :: seen) rest

/-- The cells of statements of the top level. -/
def cellsOf (topLevel : List TopLevelStmt) : List Slot := topLevel.filterMap (·.cell)

/-- A statement of the top level that declares a name has a cell. -/
def Housed (t : TopLevelStmt) : Prop :=
  (declared? t.stmt).isSome = true → t.cell.isSome = true

/-- A statement as it is registered behind declarations of these names: a declaration gets a cell of
its own. -/
def equip (seen : List String) (g : Generator) (s : Stmt) : TopLevelStmt :=
  ⟨s, match s with
    | .declare name constant type value _ =>
      some ⟨.cell (cellName name (seen.count name)), cellType g type value, !constant⟩
    | _ => none⟩

/-- The state in which names mean the cells of these statements. -/
def housing (ts : List TopLevelStmt) (g : Generator) : Generator :=
  { g with globals := ts.foldl TopLevelStmt.rebound g.globals }

/-- Statements with cells, one behind the other. -/
def equipAll (seen : List String) (g : Generator) : List Stmt → List TopLevelStmt
  | [] => []
  | s :: rest => equip seen g s ::
    equipAll ((declared? s).toList ++ seen) (housing [equip seen g s] g) rest

theorem registerCells_eq : ∀ (body : List Stmt) (seen : List String) (g : Generator),
    registerCells seen body g = .ok (equipAll seen g body) (housing (equipAll seen g body) g)
  | [], _, _ => rfl
  | s :: rest, seen, g => by
    have hcons : registerCells seen (s :: rest) g =
        (do return equip seen g s :: (← registerCells ((declared? s).toList ++ seen) rest))
          (housing [equip seen g s] g) := by
      cases s <;> rfl
    rw [hcons, bind_of_ok _ (registerCells_eq rest _ _)]
    rfl

section

variable (seen : List String) (g : Generator)

theorem equipAll_append (before rest : List Stmt) : equipAll seen g (before ++ rest) =
    equipAll seen g before ++ equipAll ((before.filterMap declared?).reverse ++ seen)
      (housing (equipAll seen g before) g) rest := by
  induction before generalizing seen g with
  | nil => rfl
  | cons s before ih =>
    have hseen : ((s :: before).filterMap declared?).reverse ++ seen =
        (before.filterMap declared?).reverse ++ ((declared? s).toList ++ seen) := by
      rw [List.filterMap_cons]
      cases declared? s <;> simp
    rw [List.cons_append, equipAll, ih, hseen]
    rfl

theorem stmts_equipAll (body : List Stmt) : (equipAll seen g body).map (·.stmt) = body := by
  induction body generalizing seen g with
  | nil => rfl
  | cons s rest ih => exact congrArg (s :: ·) (ih _ _)

theorem housed_equipAll {body : List Stmt} : ∀ t ∈ equipAll seen g body, Housed t := by
  induction body generalizing seen g with
  | nil => exact List.forall_mem_nil _
  | cons s rest ih =>
    refine List.forall_mem_cons.mpr ⟨?_, ih _ _⟩
    cases s with
    | declare => exact fun _ => rfl
    | _ => exact nofun

theorem locations_equipAll (body : List Stmt) : (cellsOf (equipAll seen g body)).map (·.location) =
    (cellNames seen (body.filterMap declared?)).map Location.cell := by
  induction body generalizing seen g with
  | nil => rfl
  | cons s rest ih =>
    cases s with
    | declare => exact congrArg (_ :: ·) (ih _ _)
    | _ => exact ih _ _

end

/-- Behind statements, a name means a cell of theirs, or what it meant in front of them. -/
theorem find?_housing_cases {ts : List TopLevelStmt} {name : String} {slot : Slot}
    (h : (housing ts g).globals.find? name = some slot) :
    slot ∈ cellsOf ts ∨ g.globals.find? name = some slot := by
  induction ts generalizing g with
  | nil => exact .inr h
  | cons t ts ih =>
    obtain ⟨stmt, cell⟩ := t
    rcases ih (g := housing [⟨stmt, cell⟩] g) h with hts | hg
    · refine .inl ?_
      cases cell with
      | none => exact hts
      | some cell => exact List.mem_cons_of_mem _ hts
    · cases stmt with
      | declare other constant type value span =>
        cases cell with
        | none => exact .inr hg
        | some cell =>
          replace hg : (g.globals.insert other cell).find? name = some slot := hg
          rw [NameMap.find?_insert] at hg
          split at hg
          · cases hg
            exact .inl List.mem_cons_self
          · exact .inr hg
      | _ => exact .inr hg

/-- Behind statements that have cells, the names that they declare mean something. -/
theorem isSome_find?_housing {ts : List TopLevelStmt} {name : String} (hts : ∀ t ∈ ts, Housed t)
    (h : name ∈ ts.filterMap (declared? ·.stmt) ∨ (g.globals.find? name).isSome = true) :
    ((housing ts g).globals.find? name).isSome = true := by
  induction ts generalizing g with
  | nil => exact h.resolve_left List.not_mem_nil
  | cons t ts ih =>
    obtain ⟨stmt, cell⟩ := t
    obtain ⟨ht, hts⟩ := List.forall_mem_cons.mp hts
    refine ih (g := housing [⟨stmt, cell⟩] g) hts ?_
    cases stmt with
    | declare other constant type value span =>
      obtain ⟨cell, rfl⟩ := Option.isSome_iff_exists.mp (ht rfl)
      change name ∈ _ ∨ ((g.globals.insert other cell).find? name).isSome = true
      rw [NameMap.find?_insert]
      by_cases he : name = other
      · exact .inr (by rw [if_pos he]; rfl)
      · rw [if_neg he]
        exact h.imp_left fun h => (List.mem_cons.mp h).resolve_left he
    | _ => exact h

theorem isSome_find?_declared {body : List Stmt} {name : String}
    (h : name ∈ body.filterMap declared?) (seen : List String) (g h' : Generator) :
    ((housing (equipAll seen g body) h').globals.find? name).isSome = true := by
  refine isSome_find?_housing (housed_equipAll seen g) (.inl ?_)
  rwa [← stmts_equipAll seen g body, List.filterMap_map] at h

/-! ## Programs -/

theorem internFloats_eq : ∀ (xs : List Float) (g : Generator),
    internFloats xs g = .ok () { g with floats := internedAll g.floats (xs.map (·.toBits)) }
  | [], _ => rfl
  | x :: xs, g => by
    refine (bind_of_ok _ (internFloat_eq x.toBits g)).trans ?_
    rw [internFloats_eq xs]
    rfl

/-- The statements of the top level, registered behind the functions. -/
def topLevelOf (p : Program) (g : Generator) : List TopLevelStmt :=
  equipAll [] (knowing p.functions g) p.topLevel

/-- What registration makes of a state. -/
def registered (p : Program) (g : Generator) : Generator :=
  { housing (topLevelOf p g) (knowing p.functions g) with
    floats := internedAll g.floats ((1 :: bodyFloats p.body).map (·.toBits)) }

section

variable {p : Program}

theorem register_of_main (h : (knowing p.functions g).signatures.contains "main" = true) :
    register p g = .ok (topLevelOf p g) (registered p g) := by
  rw [register, bind_of_ok _ (registerFunctions_eq _ g), get_bind, if_pos h]
  refine (bind_of_ok _ (registerCells_eq p.topLevel [] _)).trans ?_
  exact bind_of_ok _ (internFloats_eq _ _)

theorem register_of_no_main (h : ¬ (knowing p.functions g).signatures.contains "main" = true) :
    register p g = .error ⟨.missingMain, p.span.start⟩ (knowing p.functions g) := by
  rw [register, bind_of_ok _ (registerFunctions_eq _ g), get_bind, if_neg h]
  rfl

/-- Registration that gives a result has found `main`, and leaves all else as it is known. -/
theorem register_ok {ts : List TopLevelStmt} (h : register p g = .ok ts g') :
    (knowing p.functions g).signatures.contains "main" = true ∧ ts = topLevelOf p g ∧
      g' = registered p g := by
  by_cases hmain : (knowing p.functions g).signatures.contains "main" = true
  · rw [register_of_main hmain] at h
    cases h
    exact ⟨hmain, rfl, rfl⟩
  · rw [register_of_no_main hmain] at h
    cases h

end

end Gen

end ScriptLang
