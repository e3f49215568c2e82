import Mathlib.Data.List.Nodup
import ScriptLang.Proofs.Codegen.Linking
import ScriptLang.Proofs.Codegen.Pieces

/-!
# Functions in another order

The order of functions shows in a listing by the numbers of labels and the places of
constants alone, if no two functions share a name.
-/

namespace ScriptLang

open Assembly

/-! ## Pools with the same constants -/

/-- Places in one pool become places of the same constants in another. -/
theorem exists_places {α : Type} {pool pool' : Array α} (hn : pool.toList.Nodup)
    (hn' : pool'.toList.Nodup) (hsub : ∀ x ∈ pool, x ∈ pool') :
    ∃ f : Nat ↪ Nat, ∀ (i : Nat) (x : α), pool[i]? = some x → pool'[f i]? = some x := by
  let same := fun i j : Nat => ∃ x : α, pool[i]? = some x ∧ pool'[j]? = some x
  have hf : ∀ i j j', same i j → same i j' → j = j' := by
    rintro i j j' ⟨x, hx, hj⟩ ⟨x', hx', hj'⟩
    cases hx.symm.trans hx'
    exact Generator.getElem?_inj_of_nodup hn' hj hj'
  have hi : ∀ i i' j, same i j → same i' j → i = i' := by
    rintro i i' j ⟨x, hi, hx⟩ ⟨x', hi', hx'⟩
    cases hx.symm.trans hx'
    exact Generator.getElem?_inj_of_nodup hn hi hi'
  obtain ⟨f, hf⟩ := exists_embedding hf hi fun i j ⟨_, _, hj⟩ =>
    (Array.getElem?_eq_some_iff.mp hj).1
  refine ⟨f, fun i x hx => ?_⟩
  obtain ⟨j, hlt, hj⟩ := Array.mem_iff_getElem.mp (hsub x (Array.mem_of_getElem? hx))
  have hj : pool'[j]? = some x := Array.getElem?_eq_some_iff.mpr ⟨hlt, hj⟩
  rw [hf i j ⟨x, hx, hj⟩, hj]

theorem getElem?_prolonged {α : Type} {pool pool' : Array α} (h : pool.toList <+: pool'.toList)
    {i : Nat} {x : α} (hx : pool[i]? = some x) : pool'[i]? = some x := by
  rw [← Array.getElem?_toList] at hx ⊢
  obtain ⟨rest, hrest⟩ := h
  obtain ⟨hlt, -⟩ := List.getElem?_eq_some_iff.mp hx
  rw [← hrest, List.getElem?_append_left hlt, hx]

/-- The same constants in both pools, none of them twice. -/
structure SamePool {α : Type} (pool pool' : Array α) : Prop where
  mem : ∀ x, x ∈ pool ↔ x ∈ pool'
  nodup : pool.toList.Nodup
  nodup' : pool'.toList.Nodup

structure Generator.SamePools (g h : Generator) : Prop where
  strings : SamePool g.strings h.strings
  floats : SamePool g.floats h.floats

namespace Gen

open Generator (Outset Alike SameConstant)

variable {G : String → Option Slot} {signatures signatures' : NameMap Signature}
  {ts ts' : List TopLevelStmt} {g g' h h' : Generator} {ps qs : List Piece} {a b : Piece}

/-- Two pieces for one function. -/
structure Paired (G : String → Option Slot) (a b : Piece) : Prop where
  routine : RoutineAgrees (Outset.Marks ⟨a.before, b.before⟩) (SameConstant a.after b.after)
    a.routine b.routine
  alike : Alike ⟨a.before, b.before⟩ G a.after b.after

namespace Pieces

section

variable {α : Type} [BEq α] [LawfulBEq α] {pool : Generator → Array α}

/-- A pool with no entry twice stays so. -/
theorem nodup_pool (hps : Pieces G signatures ts g ps g')
    (h : ∀ a ∈ ps, ∃ xs, pool a.after = internedAll (pool a.before) xs)
    (hg : (pool g).toList.Nodup) : (pool g').toList.Nodup := by
  induction hps with
  | nil => exact hg
  | cons _ _ _ ih =>
    obtain ⟨⟨xs, hxs⟩, hrest⟩ := List.forall_mem_cons.mp h
    exact ih hrest (hxs ▸ nodup_internedAll hg)

/-- What one order puts in a pool, the other order does, too. -/
theorem subset_pool (hps : Pieces G signatures ts g ps g')
    (hqs : Pieces G signatures' ts' h qs h')
    (hgrows : ∀ {g g' : Generator}, g.Grows g' → (pool g).toList <+: (pool g').toList)
    (hpq : ∀ a ∈ ps, ∃ b ∈ qs, ∃ xs, pool a.after = internedAll (pool a.before) xs ∧
      pool b.after = internedAll (pool b.before) xs)
    (hgh : ∀ x ∈ pool g, x ∈ pool h) : ∀ x ∈ pool g', x ∈ pool h' := by
  have hmem : ∀ {g g' : Generator}, g.Grows g' → ∀ x ∈ pool g, x ∈ pool g' := fun hp x hx =>
    Array.mem_toList_iff.mp ((hgrows hp).subset (Array.mem_toList_iff.mpr hx))
  intro x hx
  rcases hps.origin pool hx with hx | ⟨a, ha, hafter, hbefore⟩
  · exact hmem hqs.grows x (hgh x hx)
  · obtain ⟨b, hb, xs, hpa, hpb⟩ := hpq a ha
    rw [hpa, mem_internedAll] at hafter
    refine hmem (hqs.between hb).2 x ?_
    rw [hpb, mem_internedAll]
    exact .inr (hafter.resolve_left hbefore)

/-- In either order a pool comes to the same constants. -/
theorem samePool (hps : Pieces G signatures ts g ps g') (hqs : Pieces G signatures' ts' h qs h')
    (hgrows : ∀ {g g' : Generator}, g.Grows g' → (pool g).toList <+: (pool g').toList)
    (hboth : ∀ a b, Paired G a b → ∃ xs, pool a.after = internedAll (pool a.before) xs ∧
      pool b.after = internedAll (pool b.before) xs)
    (hpq : ∀ a ∈ ps, ∃ b ∈ qs, Paired G a b) (hqp : ∀ b ∈ qs, ∃ a ∈ ps, Paired G a b)
    (hgh : SamePool (pool g) (pool h)) : SamePool (pool g') (pool h') where
  mem x := by
    constructor
    · refine hps.subset_pool hqs hgrows (fun a ha => ?_) (fun x => (hgh.mem x).mp) x
      obtain ⟨b, hb, hab⟩ := hpq a ha
      exact ⟨b, hb, hboth a b hab⟩
    · refine hqs.subset_pool hps hgrows (fun b hb => ?_) (fun x => (hgh.mem x).mpr) x
      obtain ⟨a, ha, hab⟩ := hqp b hb
      obtain ⟨xs, hxa, hxb⟩ := hboth a b hab
      exact ⟨a, ha, xs, hxb, hxa⟩
  nodup := by
    refine hps.nodup_pool (fun a ha => ?_) hgh.nodup
    obtain ⟨b, -, hab⟩ := hpq a ha
    exact (hboth a b hab).imp fun _ h => h.1
  nodup' := by
    refine hqs.nodup_pool (fun b hb => ?_) hgh.nodup'
    obtain ⟨a, -, hab⟩ := hqp b hb
    exact (hboth a b hab).imp fun _ h => h.2

theorem samePools (hps : Pieces G signatures ts g ps g')
    (hqs : Pieces G signatures' ts' h qs h') (hpq : ∀ a ∈ ps, ∃ b ∈ qs, Paired G a b)
    (hqp : ∀ b ∈ qs, ∃ a ∈ ps, Paired G a b) (hgh : g.SamePools h) : g'.SamePools h' where
  strings := hps.samePool hqs Generator.Grows.strings (fun _ _ hab => hab.alike.strings) hpq hqp
    hgh.strings
  floats := hps.samePool hqs Generator.Grows.floats (fun _ _ hab => hab.alike.floats) hpq hqp
    hgh.floats

end

/-- Functions with names of their own have symbols of their own. -/
theorem nodup_symbols (hqs : Pieces G signatures ts h qs h')
    (hn : (qs.map (·.function.name)).Nodup) : (qs.map (·.routine.symbol)).Nodup := by
  rw [hqs.symbols]
  have hmap := hn.map (f := symbolOf) fun _ _ => symbolOf_inj
  rwa [List.map_map] at hmap

/-- The symbol tells the piece, as functions have names of their own. -/
theorem eq_of_symbol (hqs : Pieces G signatures ts h qs h')
    (hn : (qs.map (·.function.name)).Nodup) (ha : a ∈ qs) (hb : b ∈ qs)
    (hs : a.routine.symbol = b.routine.symbol) : a = b :=
  List.inj_on_of_nodup_map (hqs.nodup_symbols hn) ha hb hs

end Pieces

/-! ## Renumbering -/

/-- Places in one pool become places of the same constants in the other. -/
structure Moves (ρ : Renumbering) (g h : Generator) : Prop where
  string : ∀ (i : Nat) (s : String), g.strings[i]? = some s → h.strings[ρ.string i]? = some s
  float : ∀ (i : Nat) (bits : UInt64), g.floats[i]? = some bits →
    h.floats[ρ.float i]? = some bits

/-- Routines in any order and renumbered, on pools that hold the same constants. -/
structure Rearranged (ρ : Renumbering) (rs rs' : List Routine) (g h : Generator) : Prop where
  routines : rs'.Perm (rs.map (Routine.renumber ρ))
  pools : g.SamePools h
  moves : Moves ρ g h

section

variable (hps : Pieces G signatures ts g ps g') (hqs : Pieces G signatures' ts' h qs h')
  (hn : (ps.map (·.function.name)).Nodup) (hn' : (qs.map (·.function.name)).Nodup)

include hps hqs hn hn'

/-- The numbers of each piece become those of the piece it is paired with. -/
theorem exists_numbers : ∃ f : Nat ↪ Nat, ∀ a ∈ ps, ∀ b ∈ qs, Paired G a b → ∀ k,
    a.before.labels < a.before.labels + k → a.before.labels + k ≤ a.after.labels →
    f (a.before.labels + k) = b.before.labels + k := by
  let shifts := fun n m : Nat => ∃ a ∈ ps, ∃ b ∈ qs, Paired G a b ∧ ∃ k, n = a.before.labels + k ∧
    m = b.before.labels + k ∧ (a.before.labels < n ∧ n ≤ a.after.labels) ∧
      (b.before.labels < m ∧ m ≤ b.after.labels)
  have hf : ∀ n m m', shifts n m → shifts n m' → m = m' := by
    rintro n m m' ⟨a, ha, b, hb, hab, k, hn, rfl, hin, -⟩
      ⟨a', ha', b', hb', hab', k', hn₁, rfl, hin', -⟩
    obtain rfl := hps.eq_of_number ha ha' hin hin'
    obtain rfl := hqs.eq_of_symbol hn' hb hb' (hab.routine.symbol.symm.trans hab'.routine.symbol)
    omega
  have hi : ∀ n n' m, shifts n m → shifts n' m → n = n' := by
    rintro n n' m ⟨a, ha, b, hb, hab, k, rfl, hm, -, hin⟩
      ⟨a', ha', b', hb', hab', k', rfl, hm', -, hin'⟩
    obtain rfl := hqs.eq_of_number hb hb' hin hin'
    obtain rfl := hps.eq_of_symbol hn ha ha' (hab.routine.symbol.trans hab'.routine.symbol.symm)
    omega
  have hbound : ∀ n m, shifts n m → m < h'.labels + 1 := by
    rintro n m ⟨a, ha, b, hb, -, k, -, -, -, hin⟩
    have hle := (hqs.between hb).2.labels
    omega
  obtain ⟨f, hf⟩ := exists_embedding hf hi hbound
  refine ⟨f, fun a ha b hb hab k hlt hle => hf _ _ ⟨a, ha, b, hb, hab, k, rfl, rfl, ⟨hlt, hle⟩, ?_⟩⟩
  obtain ⟨l, hla, hlb⟩ := hab.alike.labels
  dsimp only at hla hlb
  omega

/-- One renumbering takes every piece to the one it is paired with. -/
theorem exists_renumbering (hend : g'.SamePools h') : ∃ ρ : Renumbering,
    Moves ρ g' h' ∧ ∀ a ∈ ps, ∀ b ∈ qs, Paired G a b → b.routine = a.routine.renumber ρ := by
  obtain ⟨number, hnumber⟩ := exists_numbers hps hqs hn hn'
  obtain ⟨string, hstring⟩ := exists_places hend.strings.nodup hend.strings.nodup'
    fun x => (hend.strings.mem x).mp
  obtain ⟨float, hfloat⟩ := exists_places hend.floats.nodup hend.floats.nodup'
    fun x => (hend.floats.mem x).mp
  let ρ : Renumbering := ⟨number, string, float⟩
  refine ⟨ρ, ⟨hstring, hfloat⟩, fun a ha b hb hab => ?_⟩
  obtain ⟨hs, hrun⟩ := hps.of_mem ha
  have hbody : a.routine.body.map (Instruction.mapLabels ρ.label) = b.routine.body := by
    refine hab.routine.body.mapLabels (fun l => ρ.label_of_isFixed) ?_ ?_
    · rintro l hl l' ⟨mark, k, rfl, rfl⟩
      obtain ⟨hlow, hhigh⟩ := Pieces.numbers hs hrun hl
      exact congrArg (Label.numbered mark) (hnumber a ha b hb hab k hlow hhigh)
    · have hga := (hps.between ha).2
      have hgb := (hqs.between hb).2
      rintro l l' (⟨hi, hj⟩ | ⟨hi, hj⟩)
      · have hi := hstring _ _ (getElem?_prolonged hga.strings hi)
        have hj := getElem?_prolonged hgb.strings hj
        exact congrArg Label.string (Generator.getElem?_inj_of_nodup hend.strings.nodup' hi hj)
      · have hi := hfloat _ _ (getElem?_prolonged hga.floats hi)
        have hj := getElem?_prolonged hgb.floats hj
        exact congrArg Label.float (Generator.getElem?_inj_of_nodup hend.floats.nodup' hi hj)
  unfold Routine.renumber
  rw [hbody, hab.routine.symbol, hab.routine.frameSize]

/-- Pieces for the same functions make the same routines, but for numbers. -/
theorem exists_rearrangement (hgh : g.SamePools h)
    (hpq : ∀ a ∈ ps, ∃ b ∈ qs, Paired G a b) (hqp : ∀ b ∈ qs, ∃ a ∈ ps, Paired G a b) :
    ∃ ρ : Renumbering, Rearranged ρ (ps.map (·.routine)) (qs.map (·.routine)) g' h' := by
  have hend := hps.samePools hqs hpq hqp hgh
  obtain ⟨ρ, hmoves, hroutine⟩ := exists_renumbering hps hqs hn hn' hend
  refine ⟨ρ, ?_, hend, hmoves⟩
  have hnr : ((ps.map (·.routine)).map (Routine.renumber ρ)).Nodup :=
    List.Nodup.of_map Routine.symbol (by
      rw [List.map_map, List.map_map]
      exact hps.nodup_symbols hn)
  have hnr' : (qs.map (·.routine)).Nodup := List.Nodup.of_map Routine.symbol (by
    rw [List.map_map]
    exact hqs.nodup_symbols hn')
  refine (List.perm_ext_iff_of_nodup hnr' hnr).mpr fun r => ?_
  rw [List.map_map, List.mem_map, List.mem_map]
  constructor
  · rintro ⟨b, hb, rfl⟩
    obtain ⟨a, ha, hab⟩ := hqp b hb
    exact ⟨a, ha, (hroutine a ha b hb hab).symm⟩
  · rintro ⟨a, ha, rfl⟩
    obtain ⟨b, hb, hab⟩ := hpq a ha
    exact ⟨b, hb, hroutine a ha b hb hab⟩

end

/-! ## Functions -/

theorem Standing.abreast (hg : Standing G signatures g) (hh : Standing G signatures' h)
    (hs : ∀ name, (signatures.find? name).map Signature.interface =
      (signatures'.find? name).map Signature.interface) : Abreast G g h where
  signatures name := by rw [hg.signatures, hh.signatures, hs]
  globals := ⟨hg.globals, hh.globals⟩
  outside := ⟨hg.outside, hh.outside⟩

/-- Functions that are all generated from wherever the same is known are so in a row. -/
theorem exists_functions (hts : TopLevelStmt.rebindAll G ts = G) : ∀ {fs : List Function}
    {g : Generator}, (∀ f ∈ fs, ∀ g, Standing G signatures g →
      ∃ r g', function ts f g = .ok r g') → Standing G signatures g →
    ∃ rs g', functions ts fs g = .ok rs g'
  | [], g, _, _ => ⟨[], g, rfl⟩
  | f :: fs, g, hfs, hg => by
    obtain ⟨hf, hfs⟩ := List.forall_mem_cons.mp hfs
    obtain ⟨r, g₁, hr⟩ := hf g hg
    obtain ⟨rs, g₂, hrs⟩ := exists_functions hts hfs (standing_function hts hg hr)
    exact ⟨r :: rs, g₂, (bind_of_ok _ hr).trans (bind_of_ok _ hrs)⟩

/-- What stops the generation of functions is a range that is none. -/
theorem cause_functions (hts : TopLevelStmt.rebindAll G ts = G) : ∀ {fs : List Function}
    {g g' : Generator} {d : Fault}, Standing G signatures g →
    functions ts fs g = .error d g' → d.cause = .expectedRange
  | [], _, _, _, _, h => by cases h
  | f :: fs, g, g', d, hg, h => by
    cases hf : function ts f g with
    | ok r g₁ =>
      have h := (bind_of_ok _ hf).symm.trans h
      cases hfs : functions ts fs g₁ with
      | ok rs g₂ => cases (bind_of_ok _ hfs).symm.trans h
      | error d' g₂ =>
        cases (bind_of_error _ hfs).symm.trans h
        exact cause_functions hts (standing_function hts hg hf) hfs
    | error d' g₁ =>
      cases (bind_of_error _ hf).symm.trans h
      have hself := function_core hts (hg.abreast hg fun _ => rfl) f
      rw [hf] at hself
      revert hself
      generalize function (ts.map TopLevelStmt.core) f.core g = x
      rintro (_ | he)
      exact he.1

theorem rebindAll_core (G : String → Option Slot) (ts : List TopLevelStmt) :
    TopLevelStmt.rebindAll G (ts.map TopLevelStmt.core) = TopLevelStmt.rebindAll G ts := by
  unfold TopLevelStmt.rebindAll
  rw [List.foldl_map]
  refine congrFun (congrFun (congrArg List.foldl (funext fun G => funext fun t => ?_)) G) ts
  obtain ⟨stmt, cell⟩ := t
  cases stmt with
  | declare => cases cell <;> rfl
  | block b => cases b; rfl
  | function f => obtain ⟨_, _, _, ⟨_, _⟩, _⟩ := f; rfl
  | _ => rfl

section

variable (hts : TopLevelStmt.rebindAll G ts = G) (hg : Standing G signatures g)
  (hh : Standing G signatures' h)
  (hs : ∀ name, (signatures.find? name).map Signature.interface =
    (signatures'.find? name).map Signature.interface)
  {fs fs' : List Function} (hmem : ∀ f', f' ∈ fs' ↔ ∃ f ∈ fs, f.core = f')

include hts hg hh hs hmem

/-- In one order all functions are generated if they are in the other. -/
theorem functions_ok_iff : (∃ rs g', functions ts fs g = .ok rs g') ↔
    ∃ rs' h', functions (ts.map TopLevelStmt.core) fs' h = .ok rs' h' := by
  have hts' : TopLevelStmt.rebindAll G (ts.map TopLevelStmt.core) = G := by
    rw [rebindAll_core, hts]
  constructor
  · rintro ⟨rs, g', hrun⟩
    obtain ⟨ps, hps, rfl, -⟩ := pieces_of_functions hts hg hrun
    refine exists_functions hts' (fun f' hf' h₁ hh₁ => ?_) hh
    obtain ⟨f, hf, rfl⟩ := (hmem f').mp hf'
    obtain ⟨a, ha, rfl⟩ := List.mem_map.mp hf
    obtain ⟨hsa, hruna⟩ := hps.of_mem ha
    exact (function_core hts (hsa.abreast hh₁ hs) a.function).ok_iff.mp ⟨_, _, hruna⟩
  · rintro ⟨rs', h', hrun⟩
    obtain ⟨qs, hqs, rfl, -⟩ := pieces_of_functions hts' hh hrun
    refine exists_functions hts (fun f hf g₁ hg₁ => ?_) hg
    obtain ⟨b, hb, hbf⟩ := List.mem_map.mp ((hmem f.core).mpr ⟨f, hf, rfl⟩)
    obtain ⟨hsb, hrunb⟩ := hqs.of_mem hb
    rw [hbf] at hrunb
    exact (function_core hts (hg₁.abreast hsb hs) f).ok_iff.mpr ⟨_, _, hrunb⟩

/-- Functions with names of their own come out the same in any order, but for numbers. -/
theorem functions_rearranged (hgh : g.SamePools h) (hn : (fs.map (·.name)).Nodup)
    (hn' : (fs'.map (·.name)).Nodup) :
    EndAlike (fun rs rs' g' h' => ∃ ρ : Renumbering, Rearranged ρ rs rs' g' h') NoRange
      (functions ts fs g) (functions (ts.map TopLevelStmt.core) fs' h) := by
  have hts' : TopLevelStmt.rebindAll G (ts.map TopLevelStmt.core) = G := by
    rw [rebindAll_core, hts]
  have hok := functions_ok_iff hts hg hh hs hmem
  cases hrun : functions ts fs g with
  | error d g' =>
    cases hrun' : functions (ts.map TopLevelStmt.core) fs' h with
    | error d' h' => exact .error ⟨cause_functions hts hg hrun, cause_functions hts' hh hrun'⟩
    | ok rs' h' =>
      obtain ⟨_, _, hrs⟩ := hok.mpr ⟨rs', h', hrun'⟩
      cases hrun.symm.trans hrs
  | ok rs g' =>
    obtain ⟨rs', h', hrun'⟩ := hok.mp ⟨rs, g', hrun⟩
    rw [hrun']
    obtain ⟨ps, hps, rfl, rfl⟩ := pieces_of_functions hts hg hrun
    obtain ⟨qs, hqs, rfl, rfl⟩ := pieces_of_functions hts' hh hrun'
    rw [List.map_map] at hn hn'
    have hpaired : ∀ a ∈ ps, ∀ b ∈ qs, b.function = a.function.core → Paired G a b := by
      intro a ha b hb hab
      obtain ⟨hsa, hruna⟩ := hps.of_mem ha
      obtain ⟨hsb, hrunb⟩ := hqs.of_mem hb
      have hpair := function_core hts (hsa.abreast hsb hs) a.function
      rw [hab] at hrunb
      rw [hruna, hrunb] at hpair
      cases hpair with
      | ok hpair => exact ⟨hpair.1, hpair.2⟩
    refine .ok (exists_rearrangement hps hqs hn hn' hgh (fun a ha => ?_) fun b hb => ?_)
    · obtain ⟨b, hb, hbf⟩ := List.mem_map.mp
        ((hmem a.function.core).mpr ⟨_, List.mem_map_of_mem ha, rfl⟩)
      exact ⟨b, hb, hpaired a ha b hb hbf⟩
    · obtain ⟨f, hf, hbf⟩ := (hmem b.function).mp (List.mem_map_of_mem hb)
      obtain ⟨a, ha, rfl⟩ := List.mem_map.mp hf
      exact ⟨a, ha, hpaired a ha b hb hbf.symm⟩

end

end Gen

end ScriptLang
