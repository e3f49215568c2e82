import ScriptLang.Proofs.Codegen.Rearrangement

/-!
# Programs with their functions in another order

Functions with names of their own are registered without a report, and are known by the
same names in any order. The float constants of a program are put in the pool in the order
of the text, so the two pools hold the same constants at other places. What is known behind
registration is what each function is generated from.
-/

namespace ScriptLang

open Assembly

theorem SamePool.internedAll {α : Type} [BEq α] [LawfulBEq α] {pool pool' : Array α}
    (h : SamePool pool pool') {xs ys : List α} (hxy : ∀ x, x ∈ xs ↔ x ∈ ys) :
    SamePool (internedAll pool xs) (ScriptLang.internedAll pool' ys) where
  mem x := by rw [mem_internedAll, mem_internedAll, h.mem, hxy]
  nodup := nodup_internedAll h.nodup
  nodup' := nodup_internedAll h.nodup'

theorem SamePool.perm {α : Type} {pool pool' : Array α} (h : SamePool pool pool') :
    pool'.toList.Perm pool.toList :=
  (List.perm_ext_iff_of_nodup h.nodup' h.nodup).mpr fun x => by
    rw [Array.mem_toList_iff, Array.mem_toList_iff, h.mem]

theorem Generator.Even.samePools {g h : Generator} (hgh : Even g h) : g.SamePools h where
  strings := ⟨fun s => by rw [hgh.strings], hgh.nodupStrings, hgh.strings ▸ hgh.nodupStrings⟩
  floats := ⟨fun bits => by rw [hgh.floats], hgh.nodupFloats, hgh.floats ▸ hgh.nodupFloats⟩

theorem mem_bodyFloats {x : Float} (body : List Stmt) :
    x ∈ bodyFloats body ↔ ∃ s ∈ body, x ∈ s.floats := by
  induction body with
  | nil => exact ⟨nofun, nofun⟩
  | cons s rest ih =>
    rw [bodyFloats, List.mem_append, ih]
    simp only [List.mem_cons, exists_eq_or_imp]

theorem Stmt.eq_function_of_function? {s : Stmt} {f : Function} (h : s.function? = some f) :
    s = .function f := by
  cases s with
  | function g => cases h; rfl
  | _ => cases h

theorem Program.mem_floats {x : Float} (p : Program) : x ∈ bodyFloats p.body ↔
    (∃ f ∈ p.functions, x ∈ (Stmt.function f).floats) ∨ ∃ s ∈ p.topLevel, x ∈ s.floats := by
  rw [mem_bodyFloats]
  constructor
  · rintro ⟨s, hs, hx⟩
    cases hf : s.function? with
    | none => exact .inr ⟨s, List.mem_filter.mpr ⟨hs, by rw [hf]; rfl⟩, hx⟩
    | some f =>
      refine .inl ⟨f, List.mem_filterMap.mpr ⟨s, hs, hf⟩, ?_⟩
      rwa [← Stmt.eq_function_of_function? hf]
  · rintro (⟨f, hf, hx⟩ | ⟨s, hs, hx⟩)
    · obtain ⟨s, hs, hf⟩ := List.mem_filterMap.mp hf
      exact ⟨s, hs, Stmt.eq_function_of_function? hf ▸ hx⟩
    · exact ⟨s, (List.mem_filter.mp hs).1, hx⟩

namespace Gen

open Generator (Outset Alike Even)

/-! ## Registration -/

theorem lastOfName_of_nodup : ∀ {fs : List Function}, (fs.map (·.name)).Nodup → lastOfName fs = fs
  | [], _ => rfl
  | f :: fs, hn => by
    obtain ⟨hf, hn⟩ := List.nodup_cons.mp hn
    have hany : (fs.any fun g => g.name = f.name) = false := by
      refine Bool.eq_false_iff.mpr fun h => ?_
      obtain ⟨g, hg, he⟩ := List.any_eq_true.mp h
      exact hf (List.mem_map.mpr ⟨g, hg, of_decide_eq_true he⟩)
    rw [lastOfName, hany, lastOfName_of_nodup hn]
    rfl

/-- The state in which these functions are known. -/
def known (fs : List Function) : Generator :=
  { Generator.new with signatures := NameMap.empty.insertAll (signed fs) }

/-- Functions with names of their own become known without a report. -/
theorem registerFunctions_known {fs : List Function} (hn : (fs.map (·.name)).Nodup) :
    registerFunctions fs .new = .ok () (known fs) := by
  rw [registerFunctions_eq, knowing, replacements_of_nodup hn fun _ _ => rfl]
  rfl

section

variable {p q : Program} (hn : (p.functions.map (·.name)).Nodup)
  (hp : (p.functions.map Function.core).Perm q.functions)
  (htop : q.topLevel = p.topLevel.map Stmt.core)

include hp

theorem nodup_names_of_perm (hn : (p.functions.map (·.name)).Nodup) :
    (q.functions.map (·.name)).Nodup := by
  refine (hp.map (·.name)).nodup_iff.mp ?_
  rw [List.map_map]
  exact hn

theorem mem_functions_iff (f' : Function) :
    f' ∈ q.functions ↔ ∃ f ∈ p.functions, f.core = f' := by
  rw [← hp.mem_iff, List.mem_map]

include htop in
/-- Whatever the order of functions, the constants are the same. -/
theorem mem_floats_iff (x : Float) : x ∈ bodyFloats p.body ↔ x ∈ bodyFloats q.body := by
  have hfunction : ∀ f : Function, (Stmt.function f.core).floats = (Stmt.function f).floats :=
    fun ⟨n, ps, r, ⟨body, bs⟩, fs⟩ => (Stmt.function ⟨n, ps, r, ⟨body, bs⟩, fs⟩).floats_core
  rw [Program.mem_floats, Program.mem_floats, htop]
  refine or_congr ?_ ?_
  · constructor
    · rintro ⟨f, hf, hx⟩
      exact ⟨f.core, (mem_functions_iff hp _).mpr ⟨f, hf, rfl⟩, hfunction f ▸ hx⟩
    · rintro ⟨f', hf', hx⟩
      obtain ⟨f, hf, rfl⟩ := (mem_functions_iff hp f').mp hf'
      exact ⟨f, hf, hfunction f ▸ hx⟩
  · constructor
    · rintro ⟨s, hs, hx⟩
      exact ⟨s.core, List.mem_map_of_mem hs, s.floats_core ▸ hx⟩
    · rintro ⟨s', hs', hx⟩
      obtain ⟨s, hs, rfl⟩ := List.mem_map.mp hs'
      exact ⟨s, hs, s.floats_core ▸ hx⟩

include htop in
/-- Cells and constants are registered in any order of functions. -/
theorem registerRest_rearranged :
    Corresponds (Alike ⟨.new, .new⟩ fun _ => none) (fun ts ts' g h =>
        ts' = ts.map TopLevelStmt.core ∧ g.SamePools h ∧
        (∀ name, (g.signatures.find? name).map Signature.interface =
          (h.signatures.find? name).map Signature.interface) ∧
        g.globals.find? = TopLevelStmt.rebindAll (fun _ => none) ts ∧
        h.globals.find? = TopLevelStmt.rebindAll (fun _ => none) ts) NoRange
      (registerRest p) (registerRest q) := by
  unfold registerRest
  rw [htop]
  refine (registerCells_core p.topLevel []).bind fun ts ts' s t ⟨hts, hst⟩ => ?_
  have hpools := (hst.even .refl_new).samePools
  rw [bind_of_ok _ (internFloats_eq _ s), bind_of_ok _ (internFloats_eq _ t)]
  refine .ok ⟨hts, ⟨hpools.strings, hpools.floats.internedAll fun bits => ?_⟩, hst.signatures,
    hst.globals⟩
  have hmem : ∀ x, x ∈ 1 :: bodyFloats p.body ↔ x ∈ 1 :: bodyFloats q.body := fun x => by
    rw [List.mem_cons, List.mem_cons, mem_floats_iff hp htop]
  simp only [List.mem_map, hmem]

include hn

theorem alike_known :
    Alike ⟨.new, .new⟩ (fun _ => none) (known p.functions) (known q.functions) := by
  refine { alike_new with signatures := fun name => ?_ }
  refine NameMap.find?_insertAll_perm Signature.interface ?_ ?_ ?_ name
  · rwa [map_fst_signed]
  · rw [map_fst_signed]
    exact nodup_names_of_perm hp hn
  · have hcores := hp.map fun f => (f.name, (symbolOf f.name, f.parameters, f.returns))
    rw [List.map_map] at hcores
    rwa [signed, signed, List.map_map, List.map_map]

include htop

/-- In either order the same is known behind registration. -/
theorem register_rearranged :
    EndAlike (fun ts ts' g h => ts' = ts.map TopLevelStmt.core ∧ g.SamePools h ∧
        Abreast (TopLevelStmt.rebindAll (fun _ => none) ts) g h) SameCause
      (register p .new) (register q .new) := by
  have hrun : ∀ {r : Program}, (r.functions.map (·.name)).Nodup → register r .new =
      (if (known r.functions).signatures.contains "main" then registerRest r
        else throw ⟨.missingMain, r.span.start⟩) (known r.functions) := fun {r} hr => by
    refine (bind_of_ok _ (registerFunctions_known hr)).trans ?_
    change (if (known r.functions).signatures.contains "main" = true then _ else _ : Gen _)
      (known r.functions) = _
    split <;> rfl
  have hknown := alike_known hn hp
  have hp' := hrun hn
  have hq' := hrun (nodup_names_of_perm hp hn)
  rw [← hknown.contains] at hq'
  by_cases hmain : (known p.functions).signatures.contains "main" = true
  · rw [if_pos hmain] at hp' hq'
    have hrest := ((registerRest_rearranged hp htop).weakenError fun _ _ _ _ =>
      NoRange.sameCause) _ _ hknown
    rw [← hp', ← hq'] at hrest
    refine hrest.conclude fun ts ts' g h hg hh ⟨hts, hpools, hsignatures, hglobals⟩ => ?_
    exact ⟨hts, hpools, hsignatures, hglobals, (registered_register hg).topLevelExit,
      (registered_register hh).topLevelExit⟩
  · rw [hp', hq', if_neg hmain, if_neg hmain]
    exact .error rfl

/-- In either order the same functions are generated, but for numbers. -/
theorem program_rearranged :
    EndAlike (fun l l' _ _ => ∃ ρ : Renumbering, l.Rearranged ρ l') SameCause
      (program p .new) (program q .new) := by
  have hn' := nodup_names_of_perm hp hn
  have hregister : Corresponds (fun g h => g = .new ∧ h = .new) (fun ts ts' g h =>
      ts' = ts.map TopLevelStmt.core ∧ g.SamePools h ∧
        Abreast (TopLevelStmt.rebindAll (fun _ => none) ts) g h) SameCause
      (register p) (register q) := by
    rintro _ _ ⟨rfl, rfl⟩
    exact register_rearranged hn hp htop
  refine hregister.bind (fun ts ts' s t ⟨hts, hpools, hst⟩ => ?_) _ _ ⟨rfl, rfl⟩
  subst hts
  have hts := TopLevelStmt.rebindAll_rebindAll (fun _ => none) ts
  have hfunctions : Corresponds (fun g h => g = s ∧ h = t)
      (fun rs rs' g h => ∃ ρ, Rearranged ρ rs rs' g h) SameCause
      (functions ts p.functions) (functions (ts.map TopLevelStmt.core) q.functions) := by
    refine Corresponds.weakenError (fun _ _ _ _ => NoRange.sameCause) ?_
    rintro _ _ ⟨rfl, rfl⟩
    exact functions_rearranged hts ⟨rfl, hst.globals.1, hst.outside.1⟩
      ⟨rfl, hst.globals.2, hst.outside.2⟩ hst.signatures (mem_functions_iff hp) hpools hn hn'
  rw [lastOfName_of_nodup hn, lastOfName_of_nodup hn']
  refine hfunctions.bind (fun rs rs' => ?_) s t ⟨rfl, rfl⟩
  refine Corresponds.get_bind fun g h ⟨ρ, hrs⟩ => .ok ⟨ρ, ?_⟩
  refine ⟨?_, hrs.pools.strings.perm, hrs.pools.floats.perm, ?_, ?_, hrs.routines⟩
  · rw [List.filterMap_map]
    rfl
  · intro i x hx
    rw [Array.getElem?_toList] at hx ⊢
    exact hrs.moves.string i x hx
  · intro i x hx
    rw [Array.getElem?_toList] at hx ⊢
    exact hrs.moves.float i x hx

end

end Gen

/-- The order of functions with names of their own shows in numbers and places only. -/
theorem Program.product_rearranged {p q : Program} (hn : (p.functions.map (·.name)).Nodup)
    (hp : (p.functions.map Function.core).Perm (q.functions.map Function.core))
    (htop : p.topLevel.map Stmt.core = q.topLevel.map Stmt.core) :
    match p.product, q.product with
    | .ok (l, _), .ok (l', _) => ∃ ρ : Renumbering, l.Rearranged ρ l'
    | .error cause, .error cause' => cause = cause'
    | _, _ => False := by
  rw [← q.functions_core] at hp
  rw [← q.topLevel_core] at htop
  have h := Gen.program_rearranged hn hp htop.symm
  rw [← q.product_core]
  unfold product compile
  revert h
  generalize Gen.program p .new = x
  generalize Gen.program q.core .new = y
  rintro (h | h)
  · exact h
  · exact h

end ScriptLang
