import ScriptLang.Proofs.Codegen.Assignment
import ScriptLang.Proofs.Machine.Processor

/-!
# Arguments on their way

Where the words of arguments are at a call: in registers, or on the stack above the stack
pointer. No place takes two of them, so the callee finds each where it looks for it.
-/

namespace ScriptLang

open Assembly

/-- Where the word of an argument is, with the first one on the stack at an address. -/
def Passage.Carries (p : Passage) (top : BitVec 64) (m : Processor) (w : BitVec 64) : Prop :=
  match p with
  | .register r => m.register r = w
  | .float x => m.floats x = w
  | .stack i => m.load (top + BitVec.ofInt 64 (8 * i)) = w

/-! ## The caller -/

/-- The slot lies in the frame, with its first eight bytes between two depths. -/
def Slot.Between (low high : Int) (s : Slot) : Prop :=
  ∃ depth, s.location = .frame (-depth) ∧ low + 8 ≤ depth ∧ depth ≤ high

theorem Slot.Between.address {low high : Int} {s : Slot} (h : s.Between low high) (L : Layout)
    (base : BitVec 64) : ∃ depth, s.address L base = below base depth ∧ low + 8 ≤ depth ∧
      depth ≤ high := by
  obtain ⟨depth, hs, hlow, hhigh⟩ := h
  refine ⟨depth, ?_, hlow, hhigh⟩
  rw [Slot.address, hs, below]

namespace Assembly.Processor

variable {L : Layout} {back base : BitVec 64} {m m' : Processor}

/-- The word in a slot of the frame. -/
def word (L : Layout) (m : Processor) (s : Slot) : BitVec 64 :=
  m.load (s.address L (m.register .rbp))

variable {slot : Slot}

theorem address_low : m.machine.address L slot.low = some (slot.address L (m.register .rbp)) :=
  Machine.address_low

theorem effect_push_slot :
    m.effect L back (.push (.memory slot.low)) = some (m.push (m.word L slot)) := by
  show Option.map m.push (Option.map m.machine.load (m.machine.address L slot.low)) = _
  rw [address_low]
  rfl

theorem effect_loadRegister (r : Register) :
    m.effect L back (.move (.memory slot.low) (.register r)) =
      some { m with machine := m.machine.set r (m.word L slot) } := by
  show Option.map _ (m.machine.effect L (.move (.memory slot.low) (.register r))) = _
  rw [Machine.effect_load]
  rfl

theorem effect_loadFloat (x : FloatRegister) :
    m.effect L back (.loadFloat slot.low x) = some (m.setFloat x (m.word L slot)) := by
  show Option.map _ (m.machine.address L slot.low) = _
  rw [address_low]
  rfl

theorem effect_storeRegister (r : Register) :
    m.effect L back (.move (.register r) (.memory slot.low)) = some { m with
      machine := m.machine.store (slot.address L (m.register .rbp)) (m.register r) } := by
  show Option.map _ (m.machine.effect L (.move (.register r) (.memory slot.low))) = _
  rw [Machine.effect_store]
  rfl

theorem effect_loadOffset (offset : Int) (r : Register) :
    m.effect L back (.move (.memory (.frame offset)) (.register r)) = some { m with
      machine := m.machine.set r (m.load (m.register .rbp + BitVec.ofInt 64 offset)) } := rfl

theorem effect_storeFloat (x : FloatRegister) :
    m.effect L back (.storeFloat x slot.low) = some { m with
      machine := m.machine.store (slot.address L (m.register .rbp)) (m.floats x) } := by
  show Option.map _ (m.machine.address L slot.low) = _
  rw [address_low]
  rfl

/-- Only the stack pointer moves, from one depth to another, and memory above is the same. -/
structure Deepens (base : BitVec 64) (depth deeper : Int) (m m' : Processor) : Prop where
  stack : m'.register .rsp = below base deeper
  registers : ∀ r, r ≠ .rsp → m'.register r = m.register r
  floats : m'.floats = m.floats
  above : ∀ k, 8 ≤ k → k ≤ depth → m'.load (below base k) = m.load (below base k)

namespace Deepens

variable {depth deeper deepest : Int} {m'' : Processor}

theorem refl (h : m.register .rsp = below base depth) : Deepens base depth depth m m :=
  ⟨h, fun _ _ => rfl, rfl, fun _ _ _ => rfl⟩

theorem trans (h : Deepens base depth deeper m m') (h' : Deepens base deeper deepest m' m'')
    (hle : depth ≤ deeper) : Deepens base depth deepest m m'' where
  stack := h'.stack
  registers r hr := (h'.registers r hr).trans (h.registers r hr)
  floats := h'.floats.trans h.floats
  above k hlow hhigh := (h'.above k hlow (by omega)).trans (h.above k hlow hhigh)

/-- The slots above the stack pointer hold the words they held. -/
theorem word (h : Deepens base depth deeper m m') (hbase : m.register .rbp = base) {s : Slot}
    (hs : s.Between 0 depth) : m'.word L s = m.word L s := by
  obtain ⟨k, haddress, hlow, hhigh⟩ := hs.address L base
  have hbase' : m'.register .rbp = base := (h.registers .rbp nofun).trans hbase
  rw [Processor.word, Processor.word, hbase, hbase', haddress]
  exact h.above k (by omega) hhigh

end Deepens

theorem deepens_push {depth : Int} (hstack : m.register .rsp = below base depth)
    (hfits : depth + 8 ≤ 2 ^ 64) (w : BitVec 64) :
    Deepens base depth (depth + 8) m (m.push w) ∧
      (m.push w).load (below base (depth + 8)) = w := by
  have hpush : (m.push w).machine =
      (m.machine.set .rsp (below base (depth + 8))).store (below base (depth + 8)) w := by
    rw [push, hstack, below_sub_eight]
  refine ⟨⟨?_, fun r hr => ?_, rfl, fun k hlow hhigh => ?_⟩, ?_⟩
  · rw [register, hpush, Machine.registers_store, Machine.registers_set, if_pos rfl]
  · rw [register, hpush, Machine.registers_store, Machine.registers_set, if_neg hr]
    rfl
  · rw [load, hpush, Machine.load_store_below _ _ (by omega) (by omega) (by omega)]
    rfl
  · rw [load, hpush, Machine.load_store]

variable (L back)

/-- The slots are pushed from the last one on, so the first one is on top. -/
theorem effects_pushes {depth : Int} (hdepth : 0 ≤ depth) : ∀ (ss : List Slot),
    (∀ s ∈ ss, s.Between 0 depth) → m.register .rbp = base →
    m.register .rsp = below base depth → depth + 8 * ss.length ≤ 2 ^ 64 →
    ∃ m', effects L back (ss.reverse.map fun s => .push (.memory s.low)) m = some m' ∧
      Deepens base depth (depth + 8 * ss.length) m m' ∧
      ∀ (i : Nat) s, ss[i]? = some s →
        m'.load (below base (depth + 8 * ss.length - 8 * i)) = m.word L s
  | [], _, _, hstack, _ => by
    refine ⟨m, rfl, ?_, nofun⟩
    rw [List.length_nil, Int.natCast_zero, Int.mul_zero, Int.add_zero]
    exact .refl hstack
  | s :: ss, hss, hbase, hstack, hfits => by
    obtain ⟨hs, hss⟩ := List.forall_mem_cons.mp hss
    rw [List.length_cons] at hfits ⊢
    obtain ⟨u, hu, hdeep, hwords⟩ := effects_pushes hdepth ss hss hbase hstack (by omega)
    obtain ⟨hpush, htop⟩ := deepens_push hdeep.stack (by omega) (m.word L s)
    have heffect : u.effect L back (.push (.memory s.low)) = some (u.push (m.word L s)) := by
      rw [effect_push_slot, hdeep.word hbase hs]
    refine ⟨u.push (m.word L s), ?_, ?_, fun i t ht => ?_⟩
    · rw [List.reverse_cons, List.map_append]
      exact effects_append hu (effects_cons heffect rfl)
    · have hlength : depth + 8 * ((ss.length + 1 : Nat) : Int) =
          depth + 8 * ss.length + 8 := by omega
      rw [hlength]
      exact hdeep.trans hpush (by omega)
    · cases i with
      | zero =>
        cases ht
        rw [← htop]
        congr 2
        omega
      | succ i =>
        rw [← hwords i t ht]
        have hdepths : depth + 8 * ((ss.length + 1 : Nat) : Int) - 8 * ((i + 1 : Nat) : Int) =
            depth + 8 * ss.length - 8 * i := by omega
        rw [hdepths]
        rw [List.getElem?_cons_succ] at ht
        have hi : i < ss.length := (List.getElem?_eq_some_iff.mp ht).1
        exact hpush.above _ (by omega) (by omega)

variable {L back}

/-- Memory is the same, and so are the registers that no argument travels in. -/
structure Loads (ps : List Passage) (m m' : Processor) : Prop where
  memory : m'.machine.memory = m.machine.memory
  registers : ∀ r, .register r ∉ ps → m'.register r = m.register r
  floats : ∀ x, .float x ∉ ps → m'.floats x = m.floats x

namespace Loads

variable {ps : List Passage} {m'' : Processor}

theorem refl (m : Processor) : Loads ps m m := ⟨rfl, fun _ _ => rfl, fun _ _ => rfl⟩

theorem load (h : Loads ps m m') (a : BitVec 64) : m'.load a = m.load a :=
  Machine.load_congr fun x _ => congrFun h.memory x

theorem word (h : Loads ps m m') (hbase : .register .rbp ∉ ps) :
    m'.word L slot = m.word L slot := by
  rw [Processor.word, Processor.word, h.registers .rbp hbase]
  exact h.load _

theorem trans (h : Loads ps m m') (h' : Loads ps m' m'') : Loads ps m m'' where
  memory := h'.memory.trans h.memory
  registers r hr := (h'.registers r hr).trans (h.registers r hr)
  floats x hx := (h'.floats x hx).trans (h.floats x hx)

theorem mono {qs : List Passage} (h : Loads ps m m') (hsub : ps ⊆ qs) : Loads qs m m' where
  memory := h.memory
  registers r hr := h.registers r fun hmem => hr (hsub hmem)
  floats x hx := h.floats x fun hmem => hx (hsub hmem)

/-- A word stays where it travels, as nothing else travels there. -/
theorem carries (h : Loads ps m m') {p : Passage} (hp : p ∉ ps) {top w : BitVec 64}
    (hw : p.Carries top m w) : p.Carries top m' w := by
  cases p with
  | register r => exact (h.registers r hp).trans hw
  | float x => exact (h.floats x hp).trans hw
  | stack i => exact (h.load _).trans hw

end Loads

variable (L back)

theorem effects_send (p : Passage) (s : Slot) (m : Processor) (top : BitVec 64) :
    ∃ m', effects L back (p.send s) m = some m' ∧ Loads [p] m m' ∧
      ((∀ i, p ≠ .stack i) → p.Carries top m' (m.word L s)) := by
  cases p with
  | register r =>
    refine ⟨_, effects_cons (effect_loadRegister r) rfl, ⟨rfl, fun q hq => ?_, fun _ _ => rfl⟩,
      fun _ => ?_⟩
    · have hqr : q ≠ r := fun h => hq (by rw [h]; exact List.mem_singleton_self _)
      exact if_neg hqr
    · exact if_pos rfl
  | float x =>
    refine ⟨_, effects_cons (effect_loadFloat x) rfl, ⟨rfl, fun _ _ => rfl, fun y hy => ?_⟩,
      fun _ => ?_⟩
    · have hyx : y ≠ x := fun h => hy (by rw [h]; exact List.mem_singleton_self _)
      exact if_neg hyx
    · exact if_pos rfl
  | stack i => exact ⟨m, rfl, .refl m, fun h => absurd rfl (h i)⟩

/-- The registers are loaded from the slots of their arguments. -/
theorem effects_sends (top : BitVec 64) {ps : List Passage} (ss : List Slot) (m : Processor)
    (hnodup : ps.Nodup) (hbase : .register .rbp ∉ ps) :
    ∃ m', effects L back (List.zipWith Passage.send ps ss).flatten m = some m' ∧ Loads ps m m' ∧
      ∀ (k : Nat) p s, ps[k]? = some p → ss[k]? = some s → (∀ i, p ≠ .stack i) →
        p.Carries top m' (m.word L s) := by
  induction ps generalizing ss m with
  | nil => exact ⟨m, rfl, .refl m, fun _ _ _ hp => by cases hp⟩
  | cons p ps ih =>
    obtain _ | ⟨s, ss⟩ := ss
    · exact ⟨m, rfl, .refl m, fun _ _ _ _ hs => by cases hs⟩
    obtain ⟨hp, hps⟩ := List.nodup_cons.mp hnodup
    have hbasep : .register .rbp ≠ p := fun h => hbase (by rw [h]; exact List.mem_cons_self)
    have hbase : .register .rbp ∉ ps := fun h => hbase (List.mem_cons_of_mem p h)
    obtain ⟨u, hu, hfirst, hcarries⟩ := effects_send L back p s m top
    obtain ⟨m', hm', hrest, hwords⟩ := ih ss u hps hbase
    refine ⟨m', effects_append hu hm', ?_, fun k q t hq ht hstack => ?_⟩
    · exact (hfirst.mono (List.cons_subset_cons p (List.nil_subset ps))).trans
        (hrest.mono (List.subset_cons_self p ps))
    · cases k with
      | zero =>
        cases hq
        cases ht
        exact hrest.carries hp (hcarries hstack)
      | succ k =>
        have hword : u.word L t = m.word L t :=
          hfirst.word fun h => hbasep (List.mem_singleton.mp h)
        rw [← hword]
        exact hwords k q t hq ht hstack

theorem effect_moveLong (n : Int) (r : Register) (m : Processor) :
    ∃ m', m.effect L back (.moveLong n r) = some m' ∧ Loads [.register r] m m' := by
  refine ⟨_, rfl, rfl, fun q hq => ?_, fun _ _ => rfl⟩
  have hqr : q ≠ r := fun h => hq (by rw [h]; exact List.mem_singleton_self _)
  exact if_neg hqr

theorem deepens_subtract {depth n : Int} (hn : 0 ≤ n) (hfits : n < 2 ^ 31)
    (hstack : m.register .rsp = below base depth) :
    ∃ m', m.effect L back (.integer .subtract (.immediate n) .rsp) = some m' ∧
      Deepens base depth (depth + n) m m' := by
  have hread : m.machine.read L (.immediate n) = some (BitVec.ofInt 64 n) := by
    rw [Machine.read, if_pos]
    omega
  have heffect : m.effect L back (.integer .subtract (.immediate n) .rsp) = some { m with
      machine := (m.machine.set .rsp (m.register .rsp - BitVec.ofInt 64 n)).setFlags
        (IntegerOp.subtract.apply (m.register .rsp) (BitVec.ofInt 64 n)).2 } := by
    simp only [effect, Machine.effect, hread]
    rfl
  refine ⟨_, heffect, ⟨?_, fun r hr => if_neg hr, rfl, fun k _ _ => rfl⟩⟩
  have hmoved : below base depth - BitVec.ofInt 64 n = below base (depth + n) := by
    rw [below, below, Int.neg_add, BitVec.ofInt_add, ← BitVec.add_assoc,
      BitVec.sub_eq_add_neg, ← BitVec.ofInt_neg]
  rw [← hmoved, ← hstack]
  exact (m.machine.registers_set .rsp .rsp _).trans (if_pos rfl)

end Assembly.Processor

/-! ## The call -/

namespace Assembly.Processor

variable (L : Layout) (back : BitVec 64) {base : BitVec 64} {m : Processor} {slots : List Slot}

theorem length_pushes (slots : List Slot) :
    (List.zipWith Passage.pushed (Passage.ofTypes (slots.map (·.type)))
      slots).reverse.flatten.length = (Passage.stacked (Passage.ofTypes (slots.map (·.type))) slots).length := by
  rw [Passage.flatten_pushed, List.length_map, List.length_reverse]

/-- In front of the call each argument is in its place. -/
theorem effects_callLead {depth : Int} (hslots : ∀ s ∈ slots, s.Between 0 depth)
    (hbase : m.register .rbp = base) (hstack : m.register .rsp = below base depth)
    (hdepth : 0 ≤ depth) (hfits : depth + callRoom slots ≤ 2 ^ 64) :
    ∃ m', effects L back (callLead slots) m = some m' ∧ m'.register .rbp = base ∧
      m'.register .rsp = below base (depth + callRoom slots) ∧
      ∀ (k : Nat) p s, (Passage.ofTypes (slots.map (·.type)))[k]? = some p →
        slots[k]? = some s → p.Carries (m'.register .rsp) m' (m.word L s) := by
  unfold callRoom at hfits ⊢
  unfold callLead
  simp only [length_pushes] at hfits ⊢
  rw [Passage.flatten_pushed]
  generalize hps : Passage.ofTypes (slots.map (·.type)) = ps at hfits ⊢
  have hnodup : ps.Nodup := hps ▸ Passage.nodup_ofTypes _
  have havailable : ∀ p ∈ ps, p ≠ .register .rax ∧ p ≠ .register .rbp ∧ p ≠ .register .rsp :=
    fun p hp => Passage.available_ofTypes (hps ▸ hp)
  -- The stack is padded, and the arguments that travel on it are pushed.
  generalize hstacked : Passage.stacked ps slots = stacked at hfits ⊢
  generalize hpadding : (if stacked.length % 2 = 1 then 8 else 0 : Nat) = padding at hfits ⊢
  obtain ⟨u, hu, hpadded⟩ : ∃ u, effects L back
      (if stacked.length % 2 = 1 then [.integer .subtract (.immediate 8) .rsp] else []) m = some u ∧
      Deepens base depth (depth + padding) m u := by
    subst hpadding
    split
    · obtain ⟨u, hu, hdeep⟩ := deepens_subtract L back (n := 8) (by decide) (by decide) hstack
      exact ⟨u, effects_cons hu rfl, hdeep⟩
    · exact ⟨m, rfl, by simpa using Deepens.refl hstack⟩
  have hbetween : ∀ s ∈ slots, s.Between 0 (depth + padding) := by
    intro s hs
    obtain ⟨k, hk, hlow, hhigh⟩ := hslots s hs
    exact ⟨k, hk, hlow, by omega⟩
  have hbase' : u.register .rbp = base := (hpadded.registers .rbp nofun).trans hbase
  obtain ⟨v, hv, hpushed, hwords⟩ := effects_pushes L back (by omega) stacked
    (fun s hs => hbetween s (Passage.stacked_subset ps slots (hstacked ▸ hs))) hbase'
    hpadded.stack (by omega)
  -- Then the registers are loaded, and the vector registers counted.
  obtain ⟨w, hw, hloads, hcarries⟩ := effects_sends L back (v.register .rsp) slots v hnodup
    fun h => (havailable _ h).2.1 rfl
  obtain ⟨m', hm', hcounted⟩ := effect_moveLong L back (ps.countP (·.isFloat)) .rax w
  have hstack' : m'.register .rsp = v.register .rsp := by
    rw [hcounted.registers .rsp (by decide),
      hloads.registers .rsp fun h => (havailable _ h).2.2 rfl]
  have hword : ∀ s ∈ slots, v.word L s = m.word L s := fun s hs => by
    rw [hpushed.word hbase' (hbetween s hs), hpadded.word hbase (hslots s hs)]
  refine ⟨m', ?_, ?_, ?_, fun k p s hp hs => ?_⟩
  · exact effects_append (effects_append (effects_append hu hv) hw) (effects_cons hm' rfl)
  · rw [hcounted.registers .rbp (by decide),
      hloads.registers .rbp fun h => (havailable _ h).2.1 rfl, hpushed.registers .rbp nofun, hbase']
  · rw [hstack', hpushed.stack]
    congr 1
    omega
  · have hsmem := List.mem_of_getElem? hs
    have hplaced : p.Carries (v.register .rsp) w (m.word L s) := by
      cases p with
      | stack i =>
        subst hps hstacked
        obtain ⟨j, hij, hj⟩ := Passage.getElem?_stacked hp hs
        show w.load _ = _
        rw [hloads.load, hpushed.stack, below_add, ← hpadded.word hbase (hslots s hsmem),
          ← hwords j s hj]
        congr 2
        omega
      | _ =>
        rw [← hword s hsmem]
        exact hcarries k _ s hp hs nofun
    rw [hstack']
    refine hcounted.carries (fun h => ?_) hplaced
    exact (havailable p (List.mem_of_getElem? hp)).1 (List.mem_singleton.mp h)

end Assembly.Processor

/-! ## The callee -/

namespace Assembly.Processor

variable (L : Layout) (back : BitVec 64) {base : BitVec 64} {m m' m'' : Processor}
  {top depth deeper : Int}

/-- At the first instruction of its body, the frame of the callee lies below the return address
and the caller's frame pointer. -/
theorem effects_prologue (symbol : Label) (r : Routine) (hsmall : r.frameSize < 2 ^ 31)
    (hstack : m.register .rsp = below base top) (hfits : top + 16 ≤ 2 ^ 64) :
    ∃ m', effects L back (.call symbol :: r.prologue) m = some m' ∧
      m'.register .rbp = below base (top + 16) ∧
      (∀ q, q ≠ .rsp → q ≠ .rbp → m'.register q = m.register q) ∧ m'.floats = m.floats ∧
      ∀ k, 8 ≤ k → k ≤ top → m'.load (below base k) = m.load (below base k) := by
  obtain ⟨hcall, -⟩ := deepens_push hstack (by omega) back
  obtain ⟨hframe, -⟩ := deepens_push hcall.stack (by omega) ((m.push back).register .rbp)
  rw [Int.add_assoc] at hframe
  let entered := (m.push back).push ((m.push back).register .rbp)
  let framed : Processor :=
    { entered with machine := entered.machine.set .rbp (entered.register .rsp) }
  have hdeep := hcall.trans hframe (by omega)
  have hregisters : ∀ q, q ≠ .rbp → framed.register q = entered.register q := fun q hq => if_neg hq
  have hbase : framed.register .rbp = below base (top + 16) := hdeep.stack
  have hstack : framed.register .rsp = below base (top + 16) :=
    (hregisters .rsp nofun).trans hdeep.stack
  obtain ⟨m', hm', hgiven⟩ : ∃ m', effects L back (if 0 < r.frameSize
        then [.integer .subtract (.immediate r.frameSize) .rsp] else []) framed = some m' ∧
      ∃ depth, Deepens base (top + 16) depth framed m' := by
    split
    · next hpos =>
      obtain ⟨m', hm', hgiven⟩ := deepens_subtract L back (by omega) hsmall hstack
      exact ⟨m', effects_cons hm' rfl, _, hgiven⟩
    · exact ⟨framed, rfl, _, .refl hstack⟩
  obtain ⟨depth, hgiven⟩ := hgiven
  refine ⟨m', ?_, ?_, fun q hq hq' => ?_, ?_, fun k hlow hhigh => ?_⟩
  · exact effects_cons rfl (effects_cons rfl (effects_cons rfl (effects_cons rfl hm')))
  · rw [hgiven.registers .rbp nofun, hbase]
  · rw [hgiven.registers q hq, hregisters q hq', hdeep.registers q hq]
  · rw [hgiven.floats]
    exact hdeep.floats
  · rw [hgiven.above k hlow (by omega)]
    exact hdeep.above k hlow hhigh

/-- All registers but the result are the same, and so is memory above a depth. -/
structure Stores (base : BitVec 64) (depth : Int) (m m' : Processor) : Prop where
  registers : ∀ r, r ≠ .rax → m'.register r = m.register r
  floats : m'.floats = m.floats
  above : ∀ k, 8 ≤ k → k ≤ depth → m'.load (below base k) = m.load (below base k)

namespace Stores

theorem refl (m : Processor) : Stores base depth m m := ⟨fun _ _ => rfl, rfl, fun _ _ _ => rfl⟩

theorem trans (h : Stores base depth m m') (h' : Stores base deeper m' m'')
    (hle : depth ≤ deeper) : Stores base depth m m'' where
  registers r hr := (h'.registers r hr).trans (h.registers r hr)
  floats := h'.floats.trans h.floats
  above k hlow hhigh := (h'.above k hlow (by omega)).trans (h.above k hlow hhigh)

/-- What travels is still there. -/
theorem carries (h : Stores base depth m m') {p : Passage} {w : BitVec 64}
    (hp : p ≠ .register .rax) (hstack : ∀ i : Nat, p = .stack i → 8 * i + 8 ≤ top)
    (htop : top ≤ depth) (hw : p.Carries (below base top) m w) :
    p.Carries (below base top) m' w := by
  cases p with
  | register r => exact (h.registers r fun he => hp (congrArg _ he)).trans hw
  | float x => exact (congrFun h.floats x).trans hw
  | stack i =>
    have hi := hstack i rfl
    show m'.load _ = w
    rw [below_add, h.above _ (by omega) (by omega), ← below_add]
    exact hw

end Stores

/-- A word is stored below what is kept. -/
theorem stores_store (hdepth : 8 ≤ depth + 8) (hfits : depth + 8 ≤ 2 ^ 64) (w : BitVec 64) :
    Stores base depth m { m with machine := m.machine.store (below base (depth + 8)) w } where
  registers _ _ := rfl
  floats := rfl
  above k hlow hhigh := m.machine.load_store_below w (by omega) (by omega) (by omega)

/-- Where the slot of a parameter is, as seen from the caller. -/
theorem address_parameter {slot : Slot} {used : Int} (hslot : slot.location = .frame (-(used + 8)))
    (hbase : m.register .rbp = below base (top + 16)) :
    slot.address L (m.register .rbp) = below base (top + 16 + used + 8) := by
  rw [hbase, Slot.address, hslot]
  exact (below_below _ _).trans (congrArg (below base) (by omega))

/-- The argument is stored in the slot of its parameter. -/
theorem effects_receive (p : Passage) {slot : Slot} {used : Int}
    (hslot : slot.location = .frame (-(used + 8)))
    (hbase : m.register .rbp = below base (top + 16)) (hused : 0 ≤ top + 16 + used)
    (hfits : top + 16 + used + 8 ≤ 2 ^ 64) :
    ∃ m', effects L back (p.receive slot) m = some m' ∧
      Stores base (top + 16 + used) m m' ∧
      ∀ w, p.Carries (below base top) m w → m'.word L slot = w := by
  have haddress : ∀ u : Processor, u.register .rbp = m.register .rbp →
      slot.address L (u.register .rbp) = below base (top + 16 + used + 8) :=
    fun u hu => address_parameter L hslot (hu.trans hbase)
  have hword : ∀ (u : Processor) (v : BitVec 64), u.register .rbp = m.register .rbp →
      word L { u with machine := u.machine.store (below base (top + 16 + used + 8)) v } slot =
        v := by
    intro u v hu
    show Machine.load _ (slot.address L (u.register .rbp)) = v
    rw [haddress u hu]
    exact u.machine.load_store _ v
  cases p with
  | register r =>
    refine ⟨_, effects_cons (effect_storeRegister r) rfl, ?_, fun w hw => ?_⟩
    · rw [haddress m rfl]
      exact stores_store (by omega) hfits _
    · rw [haddress m rfl, hword m _ rfl]
      exact hw
  | float x =>
    refine ⟨_, effects_cons (effect_storeFloat x) rfl, ?_, fun w hw => ?_⟩
    · rw [haddress m rfl]
      exact stores_store (by omega) hfits _
    · rw [haddress m rfl, hword m _ rfl]
      exact hw
  | stack i =>
    let u : Processor := { m with
      machine := m.machine.set .rax (m.load (m.register .rbp + BitVec.ofInt 64 (16 + 8 * i))) }
    have hu : u.register .rbp = m.register .rbp := rfl
    have hloaded : Stores base (top + 16 + used) m u :=
      ⟨fun q hq => if_neg hq, rfl, fun _ _ _ => rfl⟩
    refine ⟨_, effects_cons (effect_loadOffset _ .rax)
      (effects_cons (effect_storeRegister (m := u) .rax) rfl), ?_, fun w hw => ?_⟩
    · rw [haddress u hu]
      exact hloaded.trans (stores_store (by omega) hfits _) (Int.le_refl _)
    · rw [haddress u hu, hword u _ hu, ← hw]
      show (if Register.rax = .rax then m.load (m.register .rbp + _) else m.register .rax) =
        m.load _
      rw [if_pos rfl, hbase, below_add, below_add]
      congr 2
      omega

/-- The arguments are stored one after the other. -/
theorem effects_receives {ps : List Passage} (params : List Parameter) (used : Int)
    (hbase : m.register .rbp = below base (top + 16)) (hrax : .register .rax ∉ ps)
    (hstack : ∀ i : Nat, .stack i ∈ ps → 8 * i + 8 ≤ top) (htop : 0 ≤ top) (hused : 0 ≤ used)
    (hfits : top + 16 + used + 8 * params.length ≤ 2 ^ 64) :
    ∃ m', effects L back (List.zipWith Passage.receive ps (parameterSlots params used)).flatten m =
        some m' ∧ Stores base (top + 16 + used) m m' ∧
      ∀ (k : Nat) p s w, ps[k]? = some p → (parameterSlots params used)[k]? = some s →
        p.Carries (below base top) m w → m'.word L s = w := by
  induction ps generalizing params used m with
  | nil => exact ⟨m, rfl, .refl m, fun _ _ _ _ hp => by cases hp⟩
  | cons p ps ih =>
    obtain _ | ⟨q, params⟩ := params
    · exact ⟨m, rfl, .refl m, fun _ _ _ _ _ hs => by cases hs⟩
    have hraxp : p ≠ .register .rax := fun h => hrax (by rw [h]; exact List.mem_cons_self)
    have hrax : .register .rax ∉ ps := fun h => hrax (List.mem_cons_of_mem p h)
    have hstack' : ∀ i : Nat, .stack i ∈ ps → 8 * i + 8 ≤ top :=
      fun i h => hstack i (List.mem_cons_of_mem p h)
    rw [List.length_cons] at hfits
    have hslot : Slot.location ⟨.frame (-(used + 8)), q.type.valueType, true⟩ =
        .frame (-(used + 8)) := rfl
    obtain ⟨u, hu, hfirst, hword⟩ :=
      effects_receive L back p hslot hbase (by omega) (by omega)
    have hbase' : u.register .rbp = m.register .rbp := hfirst.registers .rbp nofun
    obtain ⟨m', hm', hrest, hwords⟩ := ih params (used + 8) (hbase'.trans hbase) hrax
      hstack' (by omega) (by omega)
    refine ⟨m', effects_append hu hm', hfirst.trans hrest (by omega), fun k p' s w hp hs hw => ?_⟩
    cases k with
    | zero =>
      cases hp
      cases hs
      have hbase'' : m'.register .rbp = u.register .rbp := hrest.registers .rbp nofun
      rw [← hword w hw, word, word, hbase'', address_parameter L rfl (hbase'.trans hbase)]
      exact hrest.above _ (by omega) (by omega)
    | succ k =>
      rw [List.getElem?_cons_succ] at hp
      have hmem := List.mem_of_getElem? hp
      exact hwords k p' s w hp hs (hfirst.carries (fun h => hrax (h ▸ hmem))
        (fun i h => hstack' i (h ▸ hmem)) (by omega) hw)

/-- An argument on the stack lies in the room that the call made for it. -/
theorem stack_le_callRoom {slots : List Slot} {i : Nat}
    (hi : .stack i ∈ Passage.ofTypes (slots.map (·.type))) : 8 * i + 8 ≤ callRoom slots := by
  obtain ⟨k, hk, hp⟩ := List.mem_iff_getElem.mp hi
  have hp := List.getElem?_eq_some_iff.mpr ⟨hk, hp⟩
  have hlength : k < slots.length := by
    rw [Passage.ofTypes, Passage.length_assign, List.length_map] at hk
    exact hk
  obtain ⟨j, hij, hj⟩ := Passage.getElem?_stacked hp (List.getElem?_eq_getElem hlength)
  have hj := (List.getElem?_eq_some_iff.mp hj).1
  have hroom : 8 * (Passage.stacked (Passage.ofTypes (slots.map (·.type))) slots).length ≤
      callRoom slots := by
    unfold callRoom
    simp only [length_pushes]
    omega
  unfold Passage.ofTypes at hroom
  omega

/-- A call from its first instruction to the first statement of the callee. At the call each
argument is where its passage leads, the first one on the stack on top; there the callee finds
it, and puts it in the slot of its parameter. -/
structure Delivers (slots : List Slot) (params : List Parameter) (symbol : Label) (r : Routine)
    (m called entered received : Processor) : Prop where
  calling : effects L back (callLead slots) m = some called
  entering : effects L back (.call symbol :: r.prologue) called = some entered
  receiving : effects L back (List.zipWith Passage.receive
    (Passage.ofTypes (params.map (·.type.valueType))) (parameterSlots params 0)).flatten
    entered = some received
  pointers : entered.register .rbp + 16 = called.register .rsp
  carried : ∀ (k : Nat) s, slots[k]? = some s →
    ∃ p, (Passage.ofTypes (slots.map (·.type)))[k]? = some p ∧
      p.Carries (called.register .rsp) called (m.word L s) ∧
      p.Carries (entered.register .rbp + 16) entered (m.word L s)
  words : ∀ (k : Nat) s s', slots[k]? = some s → (parameterSlots params 0)[k]? = some s' →
    received.word L s' = m.word L s

theorem delivers_call {slots : List Slot} {params : List Parameter} (symbol : Label) (r : Routine)
    (htypes : slots.map (·.type) = params.map (·.type.valueType)) {depth : Int}
    (hslots : ∀ s ∈ slots, s.Between 0 depth)
    (hstack : m.register .rsp = below (m.register .rbp) depth) (hdepth : 0 ≤ depth)
    (hsmall : r.frameSize < 2 ^ 31)
    (hfits : depth + callRoom slots + 16 + 8 * params.length ≤ 2 ^ 64) :
    ∃ called entered received, Delivers L back slots params symbol r m called entered received := by
  obtain ⟨called, hcalled, -, htop, hplaces⟩ :=
    effects_callLead L back hslots rfl hstack hdepth (by omega)
  obtain ⟨entered, hentered, hframe, hregisters, hfloats, habove⟩ :=
    effects_prologue L back symbol r hsmall htop (by omega)
  generalize hps : Passage.ofTypes (slots.map (·.type)) = ps at hplaces ⊢
  have havailable : ∀ p ∈ ps, p ≠ .register .rax ∧ p ≠ .register .rbp ∧ p ≠ .register .rsp :=
    fun p hp => Passage.available_ofTypes (hps ▸ hp)
  have hroom : ∀ i : Nat, .stack i ∈ ps → 8 * (i : Int) + 8 ≤ depth + callRoom slots := by
    intro i hi
    have := stack_le_callRoom (hps ▸ hi)
    omega
  obtain ⟨received, hreceived, -, hwords⟩ := effects_receives L back params 0 hframe
    (fun h => (havailable _ h).1 rfl) hroom (by omega) (by omega) (by omega)
  have hpointers : entered.register .rbp + 16 = called.register .rsp := by
    rw [hframe, htop]
    exact (below_add _ 16).trans (congrArg (below _) (by omega))
  -- Entering the callee moves nothing that travels.
  have hkept : ∀ p ∈ ps, ∀ w, p.Carries (called.register .rsp) called w →
      p.Carries (called.register .rsp) entered w := by
    intro p hp w hw
    cases p with
    | register q =>
      have hq := havailable _ hp
      exact (hregisters q (fun h => hq.2.2 (congrArg _ h)) fun h => hq.2.1 (congrArg _ h)).trans hw
    | float x => exact (congrFun hfloats x).trans hw
    | stack i =>
      have hi := hroom i hp
      rw [htop] at hw ⊢
      show entered.load _ = w
      rw [below_add, habove _ (by omega) (by omega), ← below_add]
      exact hw
  have hplaced : ∀ (k : Nat) s, slots[k]? = some s → ∃ p, ps[k]? = some p ∧
      p.Carries (called.register .rsp) called (m.word L s) ∧
      p.Carries (called.register .rsp) entered (m.word L s) := by
    intro k s hs
    have hlength : k < ps.length := by
      rw [← hps, Passage.ofTypes, Passage.length_assign, List.length_map]
      exact (List.getElem?_eq_some_iff.mp hs).1
    have hp := List.getElem?_eq_getElem hlength
    have hcarried := hplaces k _ s hp hs
    exact ⟨_, hp, hcarried, hkept _ (List.getElem_mem hlength) _ hcarried⟩
  refine ⟨called, entered, received, hcalled, hentered, ?_, hpointers, fun k s hs => ?_,
    fun k s s' hs hs' => ?_⟩
  · rw [← htypes, hps]
    exact hreceived
  · rw [hps, hpointers]
    exact hplaced k s hs
  · obtain ⟨p, hp, -, hentering⟩ := hplaced k s hs
    exact hwords k p s' _ hp hs' (by rwa [htop] at hentering)

end Assembly.Processor

end ScriptLang
