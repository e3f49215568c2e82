import ScriptLang.Codegen.State
import ScriptLang.Evaluation.State
import ScriptLang.Proofs.Environment
import ScriptLang.Proofs.Machine.Operation
import ScriptLang.Proofs.Typing.Judgment

/-!
# Variables in memory

A variable is held where its slot is. The slots of variables share no bytes with each
other or with the part of the frame that is still free, where temporary slots are taken.
-/

namespace ScriptLang

open Assembly Assembly.Machine

/-- The byte lies below the frame pointer, more than `low` and at most `high` bytes. -/
def InFrame (base : BitVec 64) (low high : Int) (x : BitVec 64) : Prop :=
  ∃ offset : Int, -high ≤ offset ∧ offset < -low ∧ x = base + BitVec.ofInt 64 offset

/-- The variable is there on both sides with the same type and mutability; its value fits
the declared type, and its word is in its slot. -/
def Held (L : Layout) (s : Evaluation) (g : Generator) (m : Machine) (name : String) : Prop :=
  ∃ b slot, s.environment.find? name = some b ∧ g.find? name = some slot ∧
    slot.typing = b.typing ∧ b.Consistent ∧
    b.value.word? = some (m.load (slot.address L (m.registers .rbp)))

/-- The slots of the variables with a property lie apart from each other and from the part
of the frame between two depths, which is not larger than memory. -/
structure Room (L : Layout) (g : Generator) (p : String → Prop) (base : BitVec 64)
    (low high : Int) : Prop where
  apart : ∀ {name other slot slot'}, p name → p other → name ≠ other →
    g.find? name = some slot → g.find? other = some slot' →
    ∀ x, Covers (slot.address L base) x → ¬ Covers (slot'.address L base) x
  free : ∀ {name slot}, p name → g.find? name = some slot →
    ∀ x, Covers (slot.address L base) x → ¬ InFrame base low high x
  fits : high - low ≤ 2 ^ 64

/-- Memory has changed at most in the slots of the variables with a property and in the
frame between two depths. -/
structure Confined (L : Layout) (g : Generator) (p : String → Prop) (low high : Int)
    (m m' : Machine) : Prop where
  base : m'.registers .rbp = m.registers .rbp
  memory : ∀ x, (∀ name slot, p name → g.find? name = some slot →
      ¬ Covers (slot.address L (m.registers .rbp)) x) →
    ¬ InFrame (m.registers .rbp) low high x → m'.memory x = m.memory x

variable {L : Layout} {g : Generator} {p : String → Prop} {s s' : Evaluation}
  {m m' m'' : Machine} {base : BitVec 64} {low mid high : Int} {name : String}

namespace InFrame

variable {x : BitVec 64} {a b c d : Int}

theorem mono (h : InFrame base a b x) (hc : c ≤ a) (hd : b ≤ d) : InFrame base c d x := by
  obtain ⟨offset, hlow, hhigh, rfl⟩ := h
  exact ⟨offset, by omega, by omega, rfl⟩

/-- A byte does not lie at two depths, unless memory is smaller than the frame. -/
theorem disjoint (h : InFrame base a b x) (hbc : b ≤ c) (hfit : d - a ≤ 2 ^ 64) :
    ¬ InFrame base c d x := by
  rintro ⟨offset', hlow', hhigh', heq⟩
  obtain ⟨offset, hlow, hhigh, rfl⟩ := h
  have hmod : offset % 2 ^ 64 = offset' % 2 ^ 64 := by
    have hto := congrArg BitVec.toNat (BitVec.add_right_inj _ |>.mp heq)
    rw [BitVec.toNat_ofInt, BitVec.toNat_ofInt] at hto
    omega
  omega

/-- The bytes of a word in the frame. -/
theorem of_covers {used : Int} (h : Covers (base + BitVec.ofInt 64 (-(used + 8))) x) :
    InFrame base used (used + 8) x := by
  have hx : x = base + BitVec.ofInt 64 (-(used + 8)) +
      (x - (base + BitVec.ofInt 64 (-(used + 8)))) := by
    rw [BitVec.add_comm, BitVec.sub_add_cancel]
  unfold Covers at h
  refine ⟨-(used + 8) + (x - (base + BitVec.ofInt 64 (-(used + 8)))).toNat, by omega, by omega,
    ?_⟩
  rw [BitVec.ofInt_add, ← BitVec.add_assoc, BitVec.ofInt_natCast, BitVec.ofNat_toNat,
    BitVec.setWidth_eq]
  exact hx

end InFrame

theorem Room.shrink {low' : Int} (h : Room L g p base low high) (hlow : low ≤ low') :
    Room L g p base low' high where
  apart := h.apart
  free hp hs x hx hf := h.free hp hs x hx (hf.mono hlow (Int.le_refl _))
  fits := Int.le_trans (Int.sub_le_sub_left hlow _) h.fits

namespace Confined

theorem of_keeps (h : m.Keeps m') : Confined L g p low high m m' :=
  ⟨h.base, fun x _ _ => congrFun h.memory x⟩

theorem trans (h : Confined L g p low mid m m') (h' : Confined L g p mid high m' m'')
    (hlow : low ≤ mid) (hhigh : mid ≤ high) : Confined L g p low high m m'' where
  base := h'.base.trans h.base
  memory x hv hf := by
    have hv' := hv
    rw [← h.base] at hv'
    rw [h'.memory x hv' (by rw [h.base]; exact fun hx => hf (hx.mono hlow (Int.le_refl _))),
      h.memory x hv fun hx => hf (hx.mono (Int.le_refl _) hhigh)]

theorem mono (h : Confined L g p low mid m m') (hhigh : mid ≤ high) :
    Confined L g p low high m m' :=
  ⟨h.base, fun x hv hf => h.memory x hv fun hx => hf (hx.mono (Int.le_refl _) hhigh)⟩

theorem keeps (h : Confined L g p low high m m') (hk : m'.Keeps m'') :
    Confined L g p low high m m'' where
  base := hk.base.trans h.base
  memory x hv hf := (congrFun hk.memory x).trans (h.memory x hv hf)

/-- A store in the slot of a variable. -/
theorem store {slot : Slot} (hp : p name) (hs : g.find? name = some slot) (w : BitVec 64) :
    Confined L g p low high m (m.store (slot.address L (m.registers .rbp)) w) where
  base := rfl
  memory _ hv _ := m.memory_store_of_not_covers w (hv name slot hp hs)

/-- A store in a fresh slot. -/
theorem spill (used : Int) (w : BitVec 64) :
    Confined L g p used (used + 8) m
      (m.store (m.registers .rbp + BitVec.ofInt 64 (-(used + 8))) w) where
  base := rfl
  memory _ _ hf := m.memory_store_of_not_covers w fun hc => hf (.of_covers hc)

/-- A word deeper in the frame than what has changed is the same. -/
theorem load_spilled {used : Int} (h : Confined L g p low mid m m')
    (hroom : Room L g p (m.registers .rbp) used high) (hused : used + 8 ≤ low) (hlow : low ≤ mid)
    (hmid : mid ≤ high) :
    m'.load (m.registers .rbp + BitVec.ofInt 64 (-(used + 8))) =
      m.load (m.registers .rbp + BitVec.ofInt 64 (-(used + 8))) := by
  have hfits : mid - used ≤ 2 ^ 64 := Int.le_trans (Int.sub_le_sub_right hmid _) hroom.fits
  refine load_congr fun x hx => ?_
  have hframe := InFrame.of_covers hx
  refine h.memory x (fun name slot hp hs hc => ?_) (hframe.disjoint hused hfits)
  exact hroom.free hp hs x hc (hframe.mono (Int.le_refl _) (by omega))

end Confined

namespace Held

theorem of_keeps (h : Held L s g m name) (hk : m.Keeps m')
    (hs : s'.environment = s.environment) : Held L s' g m' name := by
  obtain ⟨b, slot, hb, hslot, ht, hc, hw⟩ := h
  refine ⟨b, slot, by rw [hs, hb], hslot, ht, hc, ?_⟩
  rw [hk.base, hk.load, hw]

/-- A store in a fresh slot changes no variable. -/
theorem spill {used : Int} (h : Held L s g m name) (hp : p name)
    (hroom : Room L g p (m.registers .rbp) used high) (hused : used + 8 ≤ high) (w : BitVec 64) :
    Held L s g (m.store (m.registers .rbp + BitVec.ofInt 64 (-(used + 8))) w) name := by
  obtain ⟨b, slot, hb, hslot, ht, hc, hw⟩ := h
  refine ⟨b, slot, hb, hslot, ht, hc, ?_⟩
  rw [registers_store, load_store_of_apart, hw]
  intro x hx hx'
  exact hroom.free hp hslot x hx ((InFrame.of_covers hx').mono (Int.le_refl _) hused)

/-- A number is stored in a variable of its type. -/
theorem store {slot : Slot} {n : Int64} {e : Environment} {other : String}
    (hroom : Room L g p (m.registers .rbp) low high) (hp : p name) (hq : p other)
    (hslot : g.find? name = some slot) (hn : Held L s g m name) (ht : slot.type = .integer)
    (hu : s.environment.update name (.integer n) = .ok e) (he : s'.environment = e)
    (h : Held L s g m other) :
    Held L s' g (m.store (slot.address L (m.registers .rbp)) n.toBitVec) other := by
  obtain ⟨b, hb, -, hf⟩ := Environment.find?_update hu
  by_cases ho : other = name
  · subst ho
    obtain ⟨c, slot', hc, hs, hty, hcons, -⟩ := hn
    obtain rfl : c = b := Option.some.inj (hc.symm.trans hb)
    obtain rfl : slot' = slot := Option.some.inj (hs.symm.trans hslot)
    have hct : c.value.type = .integer := (congrArg Typing.type hty).symm.trans ht
    obtain ⟨hw, hd⟩ := hcons.widen (v := .integer n) hct.symm rfl
    have hwiden : (Value.integer n).widen c.type = .integer n := Value.widen_of_type hd
    refine ⟨{ c with value := (Value.integer n).widen c.type }, slot', ?_, hs, ?_, ?_, ?_⟩
    · rw [he, hf, if_pos rfl]
    · rw [hty, Binding.typing, Binding.typing, hwiden, hct]
      rfl
    · exact .inl (hw.trans hd)
    · rw [hwiden, registers_store, load_store]
      rfl
  · obtain ⟨c, slot', hc, hs, hty, hcons, hw⟩ := h
    refine ⟨c, slot', by rw [he, hf, if_neg ho, hc], hs, hty, hcons, ?_⟩
    rw [registers_store, load_store_of_apart, hw]
    exact hroom.apart hq hp ho hs hslot

end Held

end ScriptLang
