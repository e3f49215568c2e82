import ScriptLang.Proofs.Codegen.Extension
import ScriptLang.Proofs.Codegen.Parallel.Program
import ScriptLang.Proofs.Codegen.Site

/-!
# What global names mean

Only a declaration of the top level makes a name mean another global, once when its cell is
registered and once more where its code stands. In front of the same statement, a name that was
declared means the same cell both times.
-/

namespace ScriptLang

open Assembly Gen Generator

theorem TopLevelStmt.find?_rebound (globals : NameMap Slot) (t : TopLevelStmt) :
    (t.rebound globals).find? = t.rebind globals.find? := by
  obtain ⟨stmt, cell⟩ := t
  cases stmt with
  | declare name constant type value span =>
    cases cell with
    | none => rfl
    | some cell => exact funext fun other => NameMap.find?_insert _ _ _ _
  | _ => rfl

theorem TopLevelStmt.find?_foldl_rebound (ts : List TopLevelStmt) (globals : NameMap Slot) :
    (ts.foldl rebound globals).find? = rebindAll globals.find? ts := by
  induction ts generalizing globals with
  | nil => rfl
  | cons t ts ih =>
    rw [List.foldl_cons, ih, find?_rebound]
    rfl

namespace Generator

/-- From the first state to the second, functions and global names mean the same. -/
structure Retains (g g' : Generator) : Prop where
  rooted : g'.Rooted
  signatures : g'.signatures = g.signatures
  globals : g'.globals = g.globals

namespace Retains

variable {α : Type} {p : α → Stage → Prop} {x : Gen α} {g g' g'' : Generator} {a : α}

theorem trans (h : g.Retains g') (h' : g'.Retains g'') : g.Retains g'' :=
  ⟨h'.rooted, h'.signatures.trans h.signatures, h'.globals.trans h.globals⟩

theorem of_shapes (hx : Shapes [] p x ⟨g, []⟩) (hg : g.Rooted) (h : x g = .ok a g') :
    g.Retains g' := by
  have hextends := Extends.of_shapes hx hg h
  exact ⟨hextends.rooted hg, hextends.signatures, hextends.globals⟩

theorem of_expression {e : Expr} {type : ValueType} (hg : g.Rooted)
    (h : expression e g = .ok type g') : g.Retains g' :=
  .of_shapes (shapes_expression e _) hg h

theorem of_statement {s : Stmt} (hg : g.Rooted) (h : statement s g = .ok () g') :
    g.Retains g' :=
  .of_shapes (shapes_statement s _) hg h

/-- An expression is evaluated and kept in a slot. -/
theorem of_spilled {e : Expr} {slot : Slot} (hg : g.Rooted)
    (h : (do spill (← expression e)) g = .ok slot g') : g.Retains g' := by
  obtain ⟨_, _, he, h⟩ := bind_ok.mp h
  have hr := of_expression hg he
  exact hr.trans (.of_shapes (shapes_spill _) hr.rooted h)

end Retains

end Generator

namespace Gen

variable {f : Function} {signatures : NameMap Signature} {g g' : Generator}

/-! ## In code -/

/-- A statement of the top level, with its cell. -/
theorem extends_housed {t : TopLevelStmt} (hg : g.Rooted)
    (h : housed t.cell t.stmt g = .ok () g') :
    { g with globals := t.rebound g.globals }.Extends g' := by
  have hplain : statement t.stmt g = .ok () g' → g.Extends g' :=
    fun h => .of_shapes (shapes_statement t.stmt _) hg h
  obtain ⟨stmt, cell⟩ := t
  cases cell with
  | none =>
    have hsame : TopLevelStmt.rebound g.globals ⟨stmt, none⟩ = g.globals := by
      cases stmt <;> rfl
    rw [hsame]
    exact hplain ((congrFun (housed_none stmt) g).symm.trans h)
  | some cell =>
    cases stmt with
    | declare name constant type value span =>
      obtain ⟨_, k, hv, h⟩ := bind_ok.mp h
      have hk := Extends.of_shapes (shapes_option value _) hg hv
      exact (hk.rebound (·.insert name cell)).trans (extends_emitDeclaration (hk.rooted hg) h)
    | _ => exact hplain h

/-- A declaration that has a cell makes its name mean that cell. -/
theorem globals_housed {t : TopLevelStmt} (hg : g.Rooted)
    (h : housed t.cell t.stmt g = .ok () g') : g'.globals.find? = t.rebind g.globals.find? := by
  rw [(extends_housed hg h).globals, TopLevelStmt.find?_rebound]

/-- Behind statements of the top level, names mean the cells that those declare. -/
theorem globals_topLevelFront : ∀ {ts : List TopLevelStmt} {g : Generator},
    Inside f signatures g → topLevelFront ts g = .ok () g' →
    Inside f signatures g' ∧ g'.globals.find? = TopLevelStmt.rebindAll g.globals.find? ts
  | [], g, hg, h => by
    cases h
    exact ⟨hg, rfl⟩
  | t :: ts, g, hg, h => by
    obtain ⟨_, k, ht, h⟩ := bind_ok.mp h
    obtain ⟨_, _, -, -, -, hk, -⟩ := run_enterTopLevel hg ht
    obtain ⟨u, -, hu, rfl⟩ := run_numberedTopLevel ht
    have hhoused := globals_housed (by exact hg.rooted) hu
    obtain ⟨hin, hglobals⟩ := globals_topLevelFront hk h
    exact ⟨hin, hglobals.trans (congrArg (TopLevelStmt.rebindAll · ts) hhoused)⟩

end Gen

/-- What was declared means the last cell of that name, whatever it meant before. -/
theorem TopLevelStmt.rebindAll_of_isSome {G : String → Option Slot} {ts : List TopLevelStmt}
    {name : String} (h : (rebindAll (fun _ => none) ts name).isSome = true) :
    rebindAll G ts name = rebindAll (fun _ => none) ts name := by
  rw [rebindAll_eq]
  exact Option.or_of_isSome h

end ScriptLang
