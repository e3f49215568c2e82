import ScriptLang.Proofs.Codegen.CallSequence

/-!
# The assignment of places to arguments

Caller and callee count what they passed. What the counts amount to is said here of each
argument: its place hangs on how many floats and how many others came before it, and no place
is assigned twice.
-/

namespace ScriptLang

open Assembly

namespace Passage

variable {rs : List Register} {xs : List FloatRegister} {n : Nat} {ts : List ValueType}

/-- What is left of the registers, and the stack from `n` on. -/
def Available (rs : List Register) (xs : List FloatRegister) (n : Nat) : Passage → Prop
  | register r => r ∈ rs
  | float x => x ∈ xs
  | stack i => n ≤ i

theorem available_of_mem {p : Passage} (h : p ∈ assign rs xs n ts) : p.Available rs xs n := by
  fun_induction assign rs xs n ts with
  | case1 => cases h
  | case2 rs x xs n ts ih =>
    rcases List.mem_cons.mp h with rfl | h
    · exact List.mem_cons_self
    · cases p with
      | float y => exact List.mem_cons_of_mem x (ih h)
      | _ => exact ih h
  | case4 r rs xs n t ts ht ht' ih =>
    rcases List.mem_cons.mp h with rfl | h
    · exact List.mem_cons_self
    · cases p with
      | register q => exact List.mem_cons_of_mem r (ih h)
      | _ => exact ih h
  | case3 rs n ts ih | case5 rs n t ts ht ht' ih =>
    rcases List.mem_cons.mp h with rfl | h
    · exact Nat.le_refl n
    · cases p with
      | stack i => exact Nat.le_of_succ_le (ih h)
      | _ => exact ih h

theorem length_assign : (assign rs xs n ts).length = ts.length := by
  fun_induction assign rs xs n ts with
  | case1 => rfl
  | case2 _ _ _ _ _ ih | case3 _ _ _ ih | case4 _ _ _ _ _ _ _ _ ih | case5 _ _ _ _ _ _ ih =>
    exact congrArg (· + 1) ih

/-- No place is assigned twice. -/
theorem nodup_assign (hr : rs.Nodup) (hx : xs.Nodup) : (assign rs xs n ts).Nodup := by
  fun_induction assign rs xs n ts with
  | case1 => exact List.nodup_nil
  | case2 rs x xs n ts ih =>
    obtain ⟨hx, hxs⟩ := List.nodup_cons.mp hx
    exact List.nodup_cons.mpr ⟨fun h => hx (available_of_mem h), ih hr hxs⟩
  | case4 r rs xs n t ts ht ht' ih =>
    obtain ⟨hr, hrs⟩ := List.nodup_cons.mp hr
    exact List.nodup_cons.mpr ⟨fun h => hr (available_of_mem h), ih hrs hx⟩
  | case3 rs n ts ih | case5 rs n t ts ht ht' ih =>
    exact List.nodup_cons.mpr ⟨fun h => absurd (available_of_mem h) (Nat.not_succ_le_self n),
      ih hr hx⟩

theorem nodup_ofTypes (ts : List ValueType) : (ofTypes ts).Nodup :=
  nodup_assign (by decide) (by decide)

/-- The place of an argument behind as many floats and as many others. -/
def place (rs : List Register) (xs : List FloatRegister) (stacked floats others : Nat)
    (t : ValueType) : Passage :=
  let overflowing := stacked + (floats - xs.length) + (others - rs.length)
  if t = .float then xs[floats]?.elim (.stack overflowing) float
  else rs[others]?.elim (.stack overflowing) register

section

variable (floats others : Nat)

theorem place_cons_float (x : FloatRegister) :
    place rs (x :: xs) n (floats + 1) others = place rs xs n floats others := by
  funext t
  simp [place]

theorem place_nil_float :
    place rs [] n (floats + 1) others = place rs [] (n + 1) floats others := by
  funext t
  simp only [place, List.length_nil, Nat.sub_zero, Nat.add_assoc, Nat.add_comm 1]
  rfl

theorem place_cons_other (r : Register) :
    place (r :: rs) xs n floats (others + 1) = place rs xs n floats others := by
  funext t
  simp [place]

theorem place_nil_other :
    place [] xs n floats (others + 1) = place [] xs (n + 1) floats others := by
  funext t
  have hcount (k : Nat) : n + k + (others + 1) = n + 1 + k + others := by omega
  simp only [place, List.length_nil, Nat.sub_zero, hcount]
  rfl

end

/-- Floats, others and what does not fit in registers are counted apart from each other. -/
theorem getElem?_assign (k : Nat) :
    (assign rs xs n ts)[k]? = ts[k]?.map
      (place rs xs n ((ts.take k).countP (· = .float)) ((ts.take k).countP (· ≠ .float))) := by
  fun_induction assign rs xs n ts generalizing k with
  | case1 => rfl
  | case2 rs x xs n ts ih =>
    cases k with
    | zero => rfl
    | succ k => simp [place_cons_float, ih]
  | case3 rs n ts ih =>
    cases k with
    | zero => simp [place]
    | succ k => simp [place_nil_float, ih]
  | case4 r rs xs n t ts ht ht' ih =>
    have ht : t ≠ .float := by
      cases xs with
      | nil => exact ht' rfl
      | cons x xs => exact ht x xs rfl
    cases k with
    | zero => simp [place, ht]
    | succ k => simp [place_cons_other, ih, ht]
  | case5 rs n t ts ht ht' ih =>
    have ht : t ≠ .float := by
      cases rs with
      | nil => exact ht' rfl
      | cons x xs => exact ht x xs rfl
    cases k with
    | zero => simp [place, ht]
    | succ k => simp [place_nil_other, ih, ht]

/-- The slots of the arguments that travel on the stack. -/
def stacked : List Passage → List Slot → List Slot
  | stack _ :: ps, s :: ss => s :: stacked ps ss
  | _ :: ps, _ :: ss => stacked ps ss
  | _, _ => []

theorem flatten_pushed (ps : List Passage) (ss : List Slot) :
    (List.zipWith pushed ps ss).reverse.flatten =
      (stacked ps ss).reverse.map fun s => .push (.memory s.low) := by
  induction ps generalizing ss with
  | nil => rfl
  | cons p ps ih =>
    cases ss with
    | nil => cases p <;> rfl
    | cons s ss =>
      rw [List.zipWith_cons_cons, List.reverse_cons, List.flatten_append, ih]
      cases p with
      | stack i => simp [stacked, pushed]
      | _ => simp [stacked, pushed]

/-- The arguments on the stack are numbered in order. -/
theorem getElem?_stacked {ss : List Slot} {k i : Nat} {s : Slot}
    (hp : (assign rs xs n ts)[k]? = some (stack i)) (hs : ss[k]? = some s) :
    ∃ j, i = n + j ∧ (stacked (assign rs xs n ts) ss)[j]? = some s := by
  fun_induction assign rs xs n ts generalizing k ss with
  | case1 => cases hp
  | case2 rs x xs n ts ih | case4 rs x xs n t ts ht ht' ih =>
    obtain _ | ⟨u, ss⟩ := ss
    · cases hs
    cases k with
    | zero => cases hp
    | succ k => exact ih hp hs
  | case3 rs n ts ih | case5 rs n t ts ht ht' ih =>
    obtain _ | ⟨u, ss⟩ := ss
    · cases hs
    cases k with
    | zero =>
      cases hp
      exact ⟨0, rfl, hs⟩
    | succ k =>
      obtain ⟨j, rfl, hj⟩ := ih hp hs
      exact ⟨j + 1, by omega, hj⟩

theorem available_ofTypes {p : Passage} {ts : List ValueType} (h : p ∈ ofTypes ts) :
    p ≠ .register .rax ∧ p ≠ .register .rbp ∧ p ≠ .register .rsp := by
  have h := available_of_mem h
  refine ⟨?_, ?_, ?_⟩
  · rintro rfl
    exact absurd h (by decide : Register.rax ∉ [.rdi, .rsi, .rdx, .rcx, .r8, .r9])
  · rintro rfl
    exact absurd h (by decide : Register.rbp ∉ [.rdi, .rsi, .rdx, .rcx, .r8, .r9])
  · rintro rfl
    exact absurd h (by decide : Register.rsp ∉ [.rdi, .rsi, .rdx, .rcx, .r8, .r9])

theorem stacked_subset : ∀ (ps : List Passage) (ss : List Slot), stacked ps ss ⊆ ss
  | [], _ => List.nil_subset _
  | p :: _, [] => by cases p <;> exact List.nil_subset _
  | p :: ps, s :: ss => by
    have hrest := stacked_subset ps ss
    cases p with
    | stack i => exact List.cons_subset_cons s hrest
    | _ => exact List.subset_cons_of_subset s hrest

end Passage

/-- The slots of parameters, each below the one before. -/
def parameterSlots : List Parameter → Int → List Slot
  | [], _ => []
  | p :: ps, used => ⟨.frame (-(used + 8)), p.type.valueType, true⟩ :: parameterSlots ps (used + 8)

end ScriptLang
