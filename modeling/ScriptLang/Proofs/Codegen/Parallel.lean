import ScriptLang.Codegen.Transfer
import ScriptLang.Proofs.Assembly.Relabelling
import ScriptLang.Proofs.Correspondence

/-!
# Generation side by side

A function may be generated from two states that give its labels other numbers and its
constants other places in the pools. Names have to mean the same in both, up to positions
that nothing is generated for. Then so does the code: it is the same, on labels that mean
the same.
-/

namespace ScriptLang

open Assembly

/-! ## Pools -/

section

variable {α : Type} [BEq α] [LawfulBEq α] {pool : Array α} {a b : α} {i : Nat}

/-- A pool with an entry, which is added unless it is there. -/
def interned (pool : Array α) (a : α) : Array α :=
  match pool.idxOf? a with
  | some _ => pool
  | none => pool.push a

/-- A pool with entries that come one behind the other. -/
def internedAll (pool : Array α) (as : List α) : Array α := as.foldl interned pool

theorem mem_interned : b ∈ interned pool a ↔ b ∈ pool ∨ b = a := by
  unfold interned
  split
  · next i h =>
    have ha : a ∈ pool := by
      by_contra hne
      rw [Array.idxOf?_eq_none_iff.mpr hne] at h
      cases h
    exact ⟨.inl, fun h => h.elim id fun h => h ▸ ha⟩
  · exact Array.mem_push

theorem mem_internedAll {as : List α} : b ∈ internedAll pool as ↔ b ∈ pool ∨ b ∈ as := by
  induction as generalizing pool with
  | nil => simp [internedAll]
  | cons a as ih =>
    change b ∈ internedAll (interned pool a) as ↔ _
    rw [ih, mem_interned, List.mem_cons, or_assoc]

/-- No entry is there twice. -/
theorem nodup_interned (h : pool.toList.Nodup) : (interned pool a).toList.Nodup := by
  unfold interned
  split
  · exact h
  · next hnone =>
    rw [Array.toList_push]
    refine List.nodup_append.mpr ⟨h, List.pairwise_singleton _ _, ?_⟩
    rintro b hb c hc rfl
    rw [List.mem_singleton.mp hc] at hb
    exact Array.idxOf?_eq_none_iff.mp hnone (Array.mem_toList_iff.mp hb)

theorem nodup_internedAll {as : List α} (h : pool.toList.Nodup) :
    (internedAll pool as).toList.Nodup := by
  induction as generalizing pool with
  | nil => exact h
  | cons a as ih => exact ih (nodup_interned h)

/-- An entry is where it was found, or at the end. -/
theorem getElem?_interned_self (pool : Array α) (a : α) :
    (interned pool a)[(pool.idxOf? a).getD pool.size]? = some a := by
  unfold interned
  cases h : pool.idxOf? a with
  | none => exact Array.getElem?_push_size
  | some i =>
    rw [Array.idxOf?_eq_map_finIdxOf?_val] at h
    obtain ⟨j, hj, rfl⟩ := Option.map_eq_some_iff.mp h
    exact Array.getElem?_eq_some_iff.mpr ⟨j.isLt, (Array.finIdxOf?_eq_some_iff.mp hj).1⟩

omit [LawfulBEq α] in
/-- Entries stay where they are. -/
theorem getElem?_interned (h : pool[i]? = some b) : (interned pool a)[i]? = some b := by
  unfold interned
  split
  · exact h
  · obtain ⟨hi, -⟩ := Array.getElem?_eq_some_iff.mp h
    rw [Array.getElem?_push_lt hi, ← h, Array.getElem?_eq_getElem hi]

end

/-- What a call has to know of a function. -/
def Signature.interface (s : Signature) : String × List Parameter × DeclaredType :=
  (s.symbol, s.function.parameters, s.function.returns)

namespace Generator

/-- The two states that a function is generated from. -/
structure Outset where
  first : Generator
  second : Generator

namespace Outset

variable (o : Outset)

/-- Numbers given out at the same distance behind the two starts. -/
def Numbers (a b : Nat) : Prop := ∃ k, a = o.first.labels + k ∧ b = o.second.labels + k

/-- Labels with one mark, numbered at the same distance. -/
inductive Marks : Label → Label → Prop
  | intro (mark : Mark) {a b : Nat} : o.Numbers a b → Marks (.numbered mark a) (.numbered mark b)

end Outset

/-- Labels of the same constant by these pools. -/
inductive SameEntry (strings strings' : Array String) (floats floats' : Array UInt64) :
    Label → Label → Prop
  | string {i j : Nat} {s : String} : strings[i]? = some s → strings'[j]? = some s →
    SameEntry strings strings' floats floats' (.string i) (.string j)
  | float {i j : Nat} {bits : UInt64} : floats[i]? = some bits → floats'[j]? = some bits →
    SameEntry strings strings' floats floats' (.float i) (.float j)

/-- Labels of the same constant in two states. -/
abbrev SameConstant (g h : Generator) : Label → Label → Prop :=
  SameEntry g.strings h.strings g.floats h.floats

/-- Names mean the same, global names what `G` says, and jumps lead to the same places. -/
structure Alike (o : Outset) (G : String → Option Slot) (g h : Generator) : Prop where
  signatures : ∀ name, (g.signatures.find? name).map Signature.interface =
    (h.signatures.find? name).map Signature.interface
  globals : g.globals.find? = G ∧ h.globals.find? = G
  frame : g.frame = h.frame
  code : CodeAgrees o.Marks (SameConstant g h) g.code.toList h.code.toList
  strings : ∃ ss, g.strings = internedAll o.first.strings ss ∧
    h.strings = internedAll o.second.strings ss
  floats : ∃ bs, g.floats = internedAll o.first.floats bs ∧
    h.floats = internedAll o.second.floats bs
  labels : o.Numbers g.labels h.labels
  loops : List.Forall₂ (fun l l' => o.Marks l.onContinue l'.onContinue ∧
    o.Marks l.onBreak l'.onBreak) g.loops h.loops
  current : g.current = h.current
  topLevelExit : Option.Rel o.Marks g.topLevelExit h.topLevelExit
  diagnostics : ∃ cs, g.diagnostics.map (·.cause) = o.first.diagnostics.map (·.cause) ++ cs ∧
    h.diagnostics.map (·.cause) = o.second.diagnostics.map (·.cause) ++ cs

namespace Alike

variable {o : Outset} {G : String → Option Slot} {g h : Generator}

theorem find? (hgh : Alike o G g h) (name : String) : g.find? name = h.find? name := by
  rw [Generator.find?, Generator.find?, hgh.frame, hgh.globals.1, hgh.globals.2]

theorem returns (hgh : Alike o G g h) : g.returns = h.returns := by
  rw [Generator.returns, Generator.returns, hgh.current]

theorem epilogue (hgh : Alike o G g h) : g.epilogue = h.epilogue := by
  rw [Generator.epilogue, Generator.epilogue, hgh.current]

theorem emit (hgh : Alike o G g h) {c c' : List Instruction}
    (hc : CodeAgrees o.Marks (SameConstant g h) c c') :
    Alike o G { g with code := g.code ++ c } { h with code := h.code ++ c' } :=
  { hgh with code := by simpa using hgh.code.append hc }

theorem report (hgh : Alike o G g h) (cause : Cause) (p p' : Position) :
    Alike o G { g with diagnostics := g.diagnostics ++ [⟨cause, p⟩] }
      { h with diagnostics := h.diagnostics ++ [⟨cause, p'⟩] } :=
  { hgh with
    diagnostics := by
      obtain ⟨cs, hg, hh⟩ := hgh.diagnostics
      exact ⟨cs ++ [cause], by simp [hg], by simp [hh]⟩ }

/-- A global name means another cell. -/
theorem insert (hgh : Alike o G g h) (name : String) (cell : Slot) :
    Alike o (fun other => if other = name then some cell else G other)
      { g with globals := g.globals.insert name cell }
      { h with globals := h.globals.insert name cell } := by
  have hfind : ∀ m : NameMap Slot, m.find? = G → (m.insert name cell).find? =
      fun other => if other = name then some cell else G other := fun m hm => by
    funext other
    rw [NameMap.find?_insert, hm]
  exact { hgh with globals := ⟨hfind _ hgh.globals.1, hfind _ hgh.globals.2⟩ }

theorem contains (hgh : Alike o G g h) (name : String) :
    g.signatures.contains name = h.signatures.contains name := by
  have hs := congrArg Option.isSome (hgh.signatures name)
  rwa [Option.isSome_map, Option.isSome_map] at hs

theorem withFrame (hgh : Alike o G g h) {f f' : Frame} (hf : f = f') :
    Alike o G { g with frame := f } { h with frame := f' } := { hgh with frame := hf }

/-- A text gets a place in the pools. -/
theorem internString (hgh : Alike o G g h) (s : String) :
    Alike o G { g with strings := interned g.strings s }
      { h with strings := interned h.strings s } :=
  { hgh with
    strings := by
      obtain ⟨ss, hg, hh⟩ := hgh.strings
      exact ⟨ss ++ [s], by simp [internedAll, hg], by simp [internedAll, hh]⟩
    code := hgh.code.mono fun _ _ hl => by
      cases hl with
      | string hi hj => exact .string (getElem?_interned hi) (getElem?_interned hj)
      | float hi hj => exact .float hi hj }

/-- A float gets a place in the pools. -/
theorem internFloat (hgh : Alike o G g h) (bits : UInt64) :
    Alike o G { g with floats := interned g.floats bits }
      { h with floats := interned h.floats bits } :=
  { hgh with
    floats := by
      obtain ⟨bs, hg, hh⟩ := hgh.floats
      exact ⟨bs ++ [bits], by simp [internedAll, hg], by simp [internedAll, hh]⟩
    code := hgh.code.mono fun _ _ hl => by
      cases hl with
      | string hi hj => exact .string hi hj
      | float hi hj => exact .float (getElem?_interned hi) (getElem?_interned hj) }

end Alike

end Generator

namespace Gen

open Generator (Outset Alike SameConstant)

variable {α β : Type} {o : Outset} {G : String → Option Slot}

/-- Both sides meet a range that is none, which is all that stops the generation of code. -/
def NoRange (f f' : Fault) (_ _ : Generator) : Prop :=
  f.cause = .expectedRange ∧ f'.cause = .expectedRange

/-- From alike states both computations give related results in alike states, or both meet
a range that is none. -/
def Yoked (o : Outset) (G : String → Option Slot) (v : α → α → Prop) (x y : Gen α) : Prop :=
  Parallel (Alike o G) NoRange v x y

/-- Both give the same result. -/
abbrev Matches (o : Outset) (G : String → Option Slot) (x y : Gen α) : Prop := Yoked o G Eq x y

/-- A fresh number stands at the same distance behind both starts. -/
theorem yoked_nextLabel : Yoked o G o.Numbers nextLabel nextLabel := by
  refine Parallel.bind (v := Eq) (Parallel.modify (fun g h hgh => ?_) rfl) fun _ _ _ => ?_
  · obtain ⟨k, hg, hh⟩ := hgh.labels
    exact { hgh with labels := ⟨k + 1, by rw [hg, Nat.add_assoc], by rw [hh, Nat.add_assoc]⟩ }
  · exact Parallel.get_bind fun g h hgh => Parallel.pure hgh.labels

namespace Matches

variable {x y : Gen α} {f g : α → Gen β}

theorem pure (a : α) : Matches o G (Pure.pure a : Gen α) (Pure.pure a) := Parallel.pure rfl

theorem bind (hx : Matches o G x y) (hf : ∀ a, Matches o G (f a) (g a)) :
    Matches o G (x >>= f) (y >>= g) := Parallel.bindEq hx hf

theorem get_bind {f g : Generator → Gen α} (h : ∀ s t, Alike o G s t → Matches o G (f s) (g t)) :
    Matches o G (get >>= f) (get >>= g) := Parallel.get_bind h

theorem map {f : α → β} (hx : Matches o G x y) : Matches o G (f <$> x) (f <$> y) :=
  Parallel.map hx fun _ _ => congrArg f

theorem modify {f g : Generator → Generator} (h : ∀ s t, Alike o G s t → Alike o G (f s) (g t)) :
    Matches o G (modify f) (modify g) := Parallel.modify h rfl

theorem branch (c : Prop) [Decidable c] {x' y' : Gen α} (ht : Matches o G x y)
    (hf : Matches o G x' y') : Matches o G (if c then x else x') (if c then y else y') :=
  Parallel.ite Iff.rfl (fun _ => ht) fun _ => hf

/-! ## Steps -/

theorem report (cause : Cause) (p p' : Position) :
    Matches o G (report cause p) (report cause p') :=
  modify fun _ _ h => h.report cause p p'

theorem emit {c c' : List Instruction}
    (hc : ∀ g h, Alike o G g h → CodeAgrees o.Marks (SameConstant g h) c c') :
    Matches o G (emit c) (emit c') :=
  modify fun g h hgh => hgh.emit (hc g h hgh)

/-- Code whose labels do not hang on an order. -/
theorem emitFixed {c : List Instruction} (hc : FixedCode c) :
    Matches o G (Gen.emit c) (Gen.emit c) := emit fun _ _ _ => .fixed hc

/-- What both sides do with their fresh numbers. -/
theorem nextLabel_bind {f g : Nat → Gen α}
    (h : ∀ a b, o.Numbers a b → Matches o G (f a) (g b)) :
    Matches o G (nextLabel >>= f) (nextLabel >>= g) := Parallel.bind yoked_nextLabel h

end Matches

/-! ## Constants -/

/-- Both sides get labels of the same constant. -/
def Interns (o : Outset) (G : String → Option Slot) (x y : Gen Label) : Prop :=
  Corresponds (Alike o G) (fun l l' s t => Alike o G s t ∧ SameConstant s t l l') NoRange x y

theorem internString_eq (s : String) (g : Generator) : internString s g =
    .ok (.string ((g.strings.idxOf? s).getD g.strings.size))
      { g with strings := interned g.strings s } := by
  change (match g.strings.idxOf? s with
    | some i => Pure.pure (.string i)
    | none => _ : Gen Label) g = _
  unfold interned
  cases g.strings.idxOf? s <;> rfl

theorem internFloat_eq (bits : UInt64) (g : Generator) : internFloat bits g =
    .ok (.float ((g.floats.idxOf? bits).getD g.floats.size))
      { g with floats := interned g.floats bits } := by
  change (match g.floats.idxOf? bits with
    | some i => Pure.pure (.float i)
    | none => _ : Gen Label) g = _
  unfold interned
  cases g.floats.idxOf? bits <;> rfl

theorem interns_string (s : String) : Interns o G (internString s) (internString s) := by
  intro g h hgh
  rw [internString_eq, internString_eq]
  exact .ok ⟨hgh.internString s,
    .string (getElem?_interned_self _ s) (getElem?_interned_self _ s)⟩

theorem interns_float (bits : UInt64) : Interns o G (internFloat bits) (internFloat bits) := by
  intro g h hgh
  rw [internFloat_eq, internFloat_eq]
  exact .ok ⟨hgh.internFloat bits,
    .float (getElem?_interned_self _ bits) (getElem?_interned_self _ bits)⟩

/-- Code on the label of a constant, and what comes behind it. -/
theorem Interns.emit_bind {x y : Gen Label} (hx : Interns o G x y) {c : Label → List Instruction}
    (hc : ∀ {m d : Label → Label → Prop} {l l'}, d l l' → CodeAgrees m d (c l) (c l'))
    {f g : Unit → Gen α} (hf : Matches o G (f ()) (g ())) :
    Matches o G (x >>= fun l => emit (c l) >>= f) (y >>= fun l => emit (c l) >>= g) := by
  refine Corresponds.bind hx fun l l' =>
    Corresponds.bind (q := fun _ _ => Alike o G) ?_ fun _ _ => hf
  exact Corresponds.modify fun s t hst => hst.1.emit (hc hst.2)

theorem Interns.emit {x y : Gen Label} (hx : Interns o G x y) {c : Label → List Instruction}
    (hc : ∀ {m d : Label → Label → Prop} {l l'}, d l l' → CodeAgrees m d (c l) (c l')) :
    Matches o G (x >>= fun l => emit (c l)) (y >>= fun l => emit (c l)) :=
  Corresponds.bind hx fun _ _ => Corresponds.modify fun _ _ hst => ⟨rfl, hst.1.emit (hc hst.2)⟩

end Gen

end ScriptLang
