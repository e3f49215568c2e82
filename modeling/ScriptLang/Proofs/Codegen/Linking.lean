import ScriptLang.Proofs.Assembly.LabelText
import ScriptLang.Proofs.Codegen.Labels
import ScriptLang.Proofs.Codegen.Layout
import ScriptLang.Proofs.Grammar.Word

/-!
# Listings are closed

Each label of a listing is placed once, by its text. Jumps stay in their function or lead
to the handlers of traps, calls name functions of the listing, and what code refers to is
in the data sections.
-/

namespace ScriptLang

open Assembly Gen

/-! ## Names -/

/-- Functions have symbols of their own. -/
theorem symbolOf_inj {a b : String} (h : symbolOf a = symbolOf b) : a = b := by
  have hne : ∀ a : String, "kt_" ++ a ≠ "main" := fun a h => by
    have h := congrArg String.toList h
    rw [String.toList_append] at h
    exact absurd (List.cons.inj h).1 (by decide)
  unfold symbolOf at h
  split at h <;> split at h
  · simp_all
  · exact absurd (h.symm.trans ‹a = "main"›) (hne b)
  · exact absurd (h.trans ‹b = "main"›) (hne a)
  · have h := congrArg String.toList h
    rw [String.toList_append, String.toList_append] at h
    exact String.toList_injective (List.append_cancel_left h)

theorem listed_symbolOf (name : String) :
    (Label.symbol (symbolOf name)).Listed ∧ (Label.epilogue (symbolOf name)).Listed := by
  have h : symbolOf name = "main" ∨ "kt_".toList <+: (symbolOf name).toList := by
    unfold symbolOf
    split
    · exact .inl ‹_›
    · rw [String.toList_append]
      exact .inr (List.prefix_append _ _)
  exact ⟨h, h⟩

theorem lastOfName_subset : ∀ fs : List Function, lastOfName fs ⊆ fs
  | [] => List.Subset.refl _
  | f :: fs => by
    unfold lastOfName
    split
    · exact List.Subset.trans (lastOfName_subset fs) (List.subset_cons_self _ _)
    · exact List.cons_subset_cons f (lastOfName_subset fs)

/-- Of the functions of a name one is left. -/
theorem exists_lastOfName {f : Function} : ∀ {fs : List Function}, f ∈ fs →
    ∃ f' ∈ lastOfName fs, f'.name = f.name
  | g :: fs, h => by
    have hlater : f ∈ fs → ∃ f' ∈ lastOfName (g :: fs), f'.name = f.name := fun h => by
      obtain ⟨f', hf, hn⟩ := exists_lastOfName h
      unfold lastOfName
      split
      · exact ⟨f', hf, hn⟩
      · exact ⟨f', List.mem_cons_of_mem _ hf, hn⟩
    rcases List.mem_cons.mp h with rfl | h
    · unfold lastOfName
      split
      · next hany =>
        obtain ⟨g, hg, hn⟩ := List.any_eq_true.mp hany
        obtain ⟨f', hf, hn'⟩ := exists_lastOfName hg
        exact ⟨f', hf, hn'.trans (of_decide_eq_true hn)⟩
      · exact ⟨f, List.mem_cons_self, rfl⟩
    · exact hlater h

theorem nodup_lastOfName : ∀ fs : List Function, ((lastOfName fs).map (·.name)).Nodup
  | [] => List.nodup_nil
  | f :: fs => by
    unfold lastOfName
    split
    · exact nodup_lastOfName fs
    · next hany =>
      refine List.nodup_cons.mpr ⟨fun hmem => hany ?_, nodup_lastOfName fs⟩
      obtain ⟨g, hg, hn⟩ := List.mem_map.mp hmem
      exact List.any_eq_true.mpr ⟨g, lastOfName_subset fs hg, decide_eq_true hn⟩

theorem toList_cellName (name : String) (n : Nat) :
    (cellName name n).toList = name.toList ++ if n = 0 then [] else '.' :: Nat.toDigits 10 n := by
  unfold cellName
  split
  · rw [List.append_nil]
  · change (name ++ "." ++ n.repr).toList = _
    rw [String.toList_append, String.toList_append, Nat.toList_repr, List.append_assoc]
    rfl

/-- Words declared so many times have cells with names of their own: a point, which is in no
word, stands in front of the number. -/
theorem cellName_inj {a b : String} (ha : IsWord a) (hb : IsWord b) {m n : Nat}
    (h : cellName a m = cellName b n) : a = b ∧ m = n := by
  have hword : ∀ (name : String) (n : Nat), IsWord name →
      (cellName name n).toList.takeWhile (· ≠ '.') = name.toList := by
    intro name n hname
    have hpoint : ∀ c ∈ name.toList, decide (c ≠ '.') = true := fun c hc => by
      refine decide_eq_true ?_
      rintro rfl
      exact absurd (hname _ hc) (by decide)
    rw [toList_cellName, List.takeWhile_append_of_pos hpoint]
    split <;> simp
  have hab := String.toList_injective ((hword a m ha).symm.trans (by rw [h, hword b n hb]))
  subst hab
  have hnumbers := congrArg String.toList h
  rw [toList_cellName, toList_cellName] at hnumbers
  have hnumbers := List.append_cancel_left hnumbers
  refine ⟨rfl, ?_⟩
  split at hnumbers <;> split at hnumbers
  · omega
  · cases hnumbers
  · cases hnumbers
  · exact repr_inj (List.cons.inj hnumbers).2

theorem mem_cellNames {e : String} : ∀ {names seen : List String}, e ∈ cellNames seen names →
    ∃ name ∈ names, ∃ n, seen.count name ≤ n ∧ e = cellName name n
  | name :: rest, seen, h => by
    rcases List.mem_cons.mp h with rfl | h
    · exact ⟨name, List.mem_cons_self, _, Nat.le_refl _, rfl⟩
    · obtain ⟨other, ho, n, hn, rfl⟩ := mem_cellNames h
      refine ⟨other, List.mem_cons_of_mem _ ho, n, Nat.le_trans ?_ hn, rfl⟩
      exact List.count_le_count_cons

theorem nodup_cellNames : ∀ {names seen : List String}, (∀ name ∈ names, IsWord name) →
    (cellNames seen names).Nodup
  | [], _, _ => List.nodup_nil
  | name :: rest, seen, h => by
    obtain ⟨hname, hrest⟩ := List.forall_mem_cons.mp h
    refine List.nodup_cons.mpr ⟨fun hmem => ?_, nodup_cellNames hrest⟩
    obtain ⟨other, ho, n, hn, heq⟩ := mem_cellNames hmem
    obtain ⟨rfl, rfl⟩ := cellName_inj hname (hrest other ho) heq
    rw [List.count_cons_self] at hn
    omega

/-! ## The labels of a listing -/

namespace Assembly.Listing

variable (l : Listing)

/-- The labels of the data sections, in order. -/
def dataLabels : List Label := (l.data ++ l.constants ++ l.floatConstants).map Datum.label

/-- The labels that a listing places, in order. -/
def labels : List Label := l.dataLabels ++ l.routines.flatMap (placed ·.code) ++ placed handlers

/-- Nothing that a listing refers to is missing, and no label is placed twice. -/
structure Closed : Prop where
  unique : (l.labels.map Label.text).Nodup
  jumps : ∀ r ∈ l.routines, ∀ target ∈ jumps r.code,
    target ∈ placed r.code ∨ ∃ t, target = .trap t ∧ target ∈ placed handlers
  calls : ∀ r ∈ l.routines, ∀ f ∈ callees r.code, ∃ r' ∈ l.routines, f = .symbol r'.symbol
  defined : ∀ r ∈ l.routines, ∀ label ∈ references (r.code ++ handlers), label ∈ l.dataLabels

theorem map_label_pool {α : Type} (label : Nat → Label) {datum : Label → α → Datum}
    (h : ∀ l a, (datum l a).label = l) (entries : List α) :
    (pool label datum entries).map Datum.label = (List.range entries.length).map label := by
  refine List.ext_getElem (by simp [pool]) fun i hi hi' => ?_
  simp [pool, h]

theorem dataLabels_eq : l.dataLabels = l.cells.map (fun c => .cell c.1) ++
    (commonConstants.map Datum.label ++ (List.range l.strings.length).map Label.string) ++
    (List.range l.floats.length).map Label.float := by
  rw [dataLabels, List.map_append, List.map_append, constants, List.map_append, data,
    floatConstants, map_label_pool _ fun _ _ => rfl, map_label_pool _ fun _ _ => rfl, List.map_map]
  rfl

end Assembly.Listing

/-- The part of a listing that a label belongs to. -/
def Assembly.Label.part : Label → Nat
  | .cell _ => 0
  | .format .. | .newline | .truth _ | .trapMessage _ => 1
  | .string _ => 2
  | .float _ => 3
  | .numbered .. | .symbol _ | .epilogue _ => 4
  | .trap _ => 5
  | .named _ => 6

theorem nodup_append_of_lt {α : Type} {f : α → Nat} {as bs : List α} (k : Nat) (ha : as.Nodup)
    (hb : bs.Nodup) (hfa : ∀ a ∈ as, f a ≤ k) (hfb : ∀ b ∈ bs, k < f b) : (as ++ bs).Nodup :=
  List.nodup_append.mpr ⟨ha, hb, fun a hm b hm' h =>
    absurd (hfb b hm') (Nat.not_lt.mpr (h ▸ hfa a hm))⟩

theorem placed_code (r : Routine) : placed r.code =
    .symbol r.symbol :: (placed r.body ++ [.epilogue r.symbol]) := by
  unfold Routine.code Routine.prologue Routine.epilogue
  split <;> simp

namespace Gen

/-- The labels of functions are numbered, or belong to their symbols. -/
theorem Routines.placed {topLevel : List TopLevelStmt} {g g' : Generator} {fs : List Function}
    {rs : List Routine} (h : Routines topLevel g fs rs g') (hn : (fs.map (·.name)).Nodup) :
    (rs.flatMap (placed ·.code)).Nodup ∧ ∀ l ∈ rs.flatMap (placed ·.code),
      (∃ mark n, l = .numbered mark n ∧ g.labels < n) ∨
        ∃ f ∈ fs, l = .symbol (symbolOf f.name) ∨ l = .epilogue (symbolOf f.name) := by
  induction h with
  | nil => exact ⟨List.nodup_nil, nofun⟩
  | @cons g g' f fs r rs t _ hsymbol hm hrest ih =>
    obtain ⟨hf, hfs⟩ := List.nodup_cons.mp hn
    obtain ⟨hnodup, hlabels⟩ := ih hfs
    have hbody := (hm.made.labelled (List.cons_ne_nil _ _)).numbered
    have hother : ∀ f' ∈ fs, r.symbol ≠ symbolOf f'.name := fun f' hf' he =>
      hf (List.mem_map.mpr ⟨f', hf', (symbolOf_inj (hsymbol.symm.trans he)).symm⟩)
    rw [List.flatMap_cons, placed_code]
    have hown : ∀ l ∈ Label.symbol r.symbol :: (Assembly.placed r.body ++ [.epilogue r.symbol]),
        (∃ mark n, l = .numbered mark n ∧ g.labels < n ∧ n ≤ t.generator.labels) ∨
          l = .symbol r.symbol ∨ l = .epilogue r.symbol := by
      intro l hl
      rcases List.mem_cons.mp hl with rfl | hl
      · exact .inr (.inl rfl)
      · rcases List.mem_append.mp hl with hl | hl
        · exact .inl (hbody.between l hl)
        · exact .inr (.inr (List.mem_singleton.mp hl))
    refine ⟨List.nodup_append.mpr ⟨?_, hnodup, ?_⟩, fun l hl => ?_⟩
    · refine List.nodup_cons.mpr ⟨fun hmem => ?_, List.nodup_append.mpr ⟨hbody.nodup, by simp, ?_⟩⟩
      · rcases List.mem_append.mp hmem with hmem | hmem
        · obtain ⟨_, _, hl, -⟩ := hbody.between _ hmem
          cases hl
        · cases List.mem_singleton.mp hmem
      · rintro l hl _ he rfl
        obtain ⟨_, _, rfl, -⟩ := hbody.between _ hl
        cases List.mem_singleton.mp he
    · rintro l hl _ hl' rfl
      have hbehind := hlabels l hl'
      rcases hown l hl with ⟨mark, n, rfl, -, hn⟩ | rfl | rfl
      · rcases hbehind with ⟨_, _, he, hlt⟩ | ⟨_, -, he | he⟩
        · cases he
          exact absurd hn (Nat.not_le.mpr hlt)
        · cases he
        · cases he
      · rcases hbehind with ⟨_, _, he, -⟩ | ⟨f', hf', he | he⟩
        · cases he
        · exact hother f' hf' (Label.symbol.inj he)
        · cases he
      · rcases hbehind with ⟨_, _, he, -⟩ | ⟨f', hf', he | he⟩
        · cases he
        · cases he
        · exact hother f' hf' (Label.epilogue.inj he)
    · rcases List.mem_append.mp hl with hl | hl
      · rcases hown l hl with ⟨mark, n, rfl, hn, -⟩ | hl | hl
        · exact .inl ⟨mark, n, rfl, hn⟩
        · exact .inr ⟨f, List.mem_cons_self, .inl (hsymbol ▸ hl)⟩
        · exact .inr ⟨f, List.mem_cons_self, .inr (hsymbol ▸ hl)⟩
      · rcases hlabels l hl with ⟨mark, n, rfl, hn⟩ | ⟨f', hf', hl⟩
        · exact .inl ⟨mark, n, rfl, Nat.lt_of_le_of_lt hm.before.labels hn⟩
        · exact .inr ⟨f', List.mem_cons_of_mem _ hf', hl⟩

/-- What is known of the names at a state between functions. -/
structure Anchored (p : Program) (cells : List Slot) (g : Generator) : Prop where
  celled : Celled cells g
  known : Known p.functions g

theorem Anchored.behind {p : Program} {cells : List Slot} {r : Routine} {g : Generator}
    {returns : DeclaredType} {t : Stage} (hm : MadeFrom cells r g returns t)
    (h : Anchored p cells g) : Anchored p cells (Gen.behind t) where
  celled := h.celled.behind hm
  known name s hs := by
    have hsame : t.generator.signatures = g.signatures := hm.before.signatures
    rw [Gen.behind, hsame] at hs
    exact h.known name s hs

end Gen

/-! ## Closedness -/

theorem jumps_code (r : Routine) : jumps r.code = jumps r.body := by
  unfold Routine.code Routine.prologue Routine.epilogue
  split <;> simp

/-- Of a function's code, only the body refers to labels. -/
theorem refers_code {r : Routine} {i : Instruction} (hi : i ∈ r.code)
    (h : i.references ≠ [] ∨ i.callee?.isSome) : i ∈ r.body := by
  have hfirst : ∀ i ∈ r.prologue, i.references = [] ∧ i.callee? = none := by
    unfold Routine.prologue
    split <;> simp [Instruction.references]
  have hlast : ∀ i ∈ r.epilogue, i.references = [] ∧ i.callee? = none := by
    simp [Routine.epilogue, Instruction.references]
  have hbare : ¬ (i.references = [] ∧ i.callee? = none) := by
    rintro ⟨hr, hc⟩
    rcases h with h | h
    · exact h hr
    · rw [hc] at h
      cases h
  rcases List.mem_append.mp hi with hi | hi
  · exact (List.mem_append.mp hi).resolve_left fun hi => hbare (hfirst i hi)
  · exact absurd (hlast i hi) hbare

theorem Slot.label_of_part {s : Slot} {m : Memory} (hm : m ∈ s.parts) {name : String}
    (hl : s.location = .cell name) {l : Label} (h : m.label? = some l) : l = .cell name := by
  unfold Slot.parts Slot.low Slot.high Slot.part at hm
  rw [hl] at hm
  split at hm <;> simp at hm
  · rcases hm with rfl | rfl <;> exact (Option.some.inj h).symm
  · subst hm
    exact (Option.some.inj h).symm

/-- The label of memory that code uses is that of a cell or of a constant. -/
theorem Stage.Uses.label {cells : List Slot} {s : Stage} (hs : s.Tidy cells)
    (hc : Outside cells) {m : Memory} (h : s.Uses cells m) {l : Label} (hl : m.label? = some l) :
    (∃ slot ∈ cells, ∃ name, slot.location = .cell name ∧ l = .cell name) ∨
      ∃ index < s.generator.floats.size, l = .float index := by
  cases h with
  | slot ha hm =>
    obtain ⟨offset, hloc, -⟩ := hs.handed.stacked.within (List.mem_map_of_mem ha)
    obtain ⟨n, rfl, -⟩ := Slot.part_frame hm hloc
    cases hl
  | @cell slot _ hslot hm =>
    obtain ⟨name, hloc⟩ := hc slot hslot
    exact .inl ⟨slot, hslot, name, hloc, slot.label_of_part hm hloc hl⟩
  | argument => cases hl
  | @constant index hi =>
    cases hl
    exact .inr ⟨index, hi, rfl⟩
  | pointed => cases hl

theorem references_handlers : references handlers = Trap.all.map Label.trapMessage := rfl

theorem placed_handlers : placed handlers = Trap.all.map Label.trap := rfl

theorem Assembly.Label.listed_of_part {l : Label} (h : l.part ≠ 4) (h' : l.part ≠ 6) :
    l.Listed := by
  cases l with
  | symbol | epilogue => exact absurd rfl h
  | named => exact absurd rfl h'
  | _ => trivial

namespace Assembly.Listing

variable {l : Listing}

theorem part_dataLabels (l : Listing) : ∀ label ∈ l.dataLabels, label.part ≤ 3 := by
  have hcommon : ∀ label ∈ commonConstants.map Datum.label, label.part ≤ 3 := by decide
  rw [dataLabels_eq]
  intro label h
  rcases List.mem_append.mp h with h | h
  · rcases List.mem_append.mp h with h | h
    · obtain ⟨c, -, rfl⟩ := List.mem_map.mp h
      exact Nat.zero_le _
    · rcases List.mem_append.mp h with h | h
      · exact hcommon label h
      · obtain ⟨i, -, rfl⟩ := List.mem_map.mp h
        exact Nat.le_succ 2
  · obtain ⟨i, -, rfl⟩ := List.mem_map.mp h
    exact Nat.le_refl 3

theorem mem_dataLabels_common (l : Listing) {label : Label}
    (h : label ∈ commonConstants.map Datum.label) : label ∈ l.dataLabels := by
  rw [dataLabels_eq]
  exact List.mem_append_left _ (List.mem_append_right _ (List.mem_append_left _ h))

theorem mem_dataLabels_cell (l : Listing) {name : String} (h : name ∈ l.cells.map (·.1)) :
    .cell name ∈ l.dataLabels := by
  obtain ⟨c, hc, rfl⟩ := List.mem_map.mp h
  rw [dataLabels_eq]
  exact List.mem_append_left _ (List.mem_append_left _ (List.mem_map.mpr ⟨c, hc, rfl⟩))

theorem mem_dataLabels_float (l : Listing) {index : Nat} (h : index < l.floats.length) :
    .float index ∈ l.dataLabels := by
  rw [dataLabels_eq]
  exact List.mem_append_right _ (List.mem_map_of_mem (List.mem_range.mpr h))

theorem mem_dataLabels_string (l : Listing) {index : Nat} (h : index < l.strings.length) :
    .string index ∈ l.dataLabels := by
  rw [dataLabels_eq]
  exact List.mem_append_left _ (List.mem_append_right _ (List.mem_append_right _
    (List.mem_map_of_mem (List.mem_range.mpr h))))

/-- Labels whose address code takes are those of texts. -/
theorem mem_dataLabels_of_defines (l : Listing) {s : Stage} {label : Label}
    (hs : s.generator.strings.size ≤ l.strings.length) (h : s.Defines label) :
    label ∈ l.dataLabels := by
  cases h with
  | string hi => exact l.mem_dataLabels_string (Nat.lt_of_lt_of_le hi hs)
  | format f newline => exact l.mem_dataLabels_common (by cases f <;> cases newline <;> decide)
  | newline => exact l.mem_dataLabels_common (by decide)
  | truth b => exact l.mem_dataLabels_common (by cases b <;> decide)

theorem nodup_dataLabels (h : (l.cells.map (·.1)).Nodup) : l.dataLabels.Nodup := by
  have hrange : ∀ {label : Nat → Label} (n : Nat), (∀ i j, label i = label j → i = j) →
      ((List.range n).map label).Nodup := fun n hinj =>
    List.Pairwise.map _ (fun i j hne he => hne (hinj i j he)) List.nodup_range
  have hcells : (l.cells.map fun c => Label.cell c.1).Nodup :=
    List.pairwise_map.mpr ((List.pairwise_map.mp h).imp fun hne he => hne (Label.cell.inj he))
  have hcommon : (commonConstants.map Datum.label).Nodup := by decide
  have hpart : ∀ label ∈ commonConstants.map Datum.label, label.part = 1 := by decide
  have hpool : ∀ {label : Nat → Label} {n k : Nat}, (∀ i, (label i).part = k) →
      ∀ x ∈ (List.range n).map label, x.part = k := by
    intro label n k hk x hx
    obtain ⟨i, -, rfl⟩ := List.mem_map.mp hx
    exact hk i
  have hstrings : ∀ x ∈ (List.range l.strings.length).map Label.string, x.part = 2 :=
    hpool fun _ => rfl
  have hfloats : ∀ x ∈ (List.range l.floats.length).map Label.float, x.part = 3 :=
    hpool fun _ => rfl
  rw [dataLabels_eq]
  refine nodup_append_of_lt (f := Label.part) 2 (nodup_append_of_lt (f := Label.part) 0 hcells
    (nodup_append_of_lt (f := Label.part) 1 hcommon (hrange _ fun i j => Label.string.inj) ?_ ?_)
    ?_ ?_) (hrange _ fun i j => Label.float.inj) ?_ ?_
  · exact fun x hx => Nat.le_of_eq (hpart x hx)
  · exact fun x hx => by rw [hstrings x hx]; decide
  · intro x hx
    obtain ⟨c, -, rfl⟩ := List.mem_map.mp hx
    exact Nat.le_refl 0
  · exact List.forall_mem_append.mpr ⟨fun x hx => by rw [hpart x hx]; decide,
      fun x hx => by rw [hstrings x hx]; decide⟩
  · refine List.forall_mem_append.mpr ⟨fun x hx => ?_, List.forall_mem_append.mpr
      ⟨fun x hx => by rw [hpart x hx]; decide, fun x hx => Nat.le_of_eq (hstrings x hx)⟩⟩
    obtain ⟨c, -, rfl⟩ := List.mem_map.mp hx
    exact Nat.zero_le _
  · exact fun x hx => by rw [hfloats x hx]; decide

end Assembly.Listing

section

variable {p : Program} {topLevel : List TopLevelStmt} {g g₁ g' : Generator} {l : Listing}
  {r : Routine} {returns : DeclaredType} {t : Stage}

/-- The labels of all functions belong to the part of functions, and may be listed. -/
theorem Gen.Routines.part_placed {fs : List Function} {rs : List Routine}
    (h : Routines topLevel g fs rs g') (hn : (fs.map (·.name)).Nodup) :
    ∀ label ∈ rs.flatMap (Assembly.placed ·.code), label.part = 4 ∧ label.Listed := by
  intro label hl
  rcases (h.placed hn).2 label hl with ⟨mark, n, rfl, -⟩ | ⟨f, -, rfl | rfl⟩
  · exact ⟨rfl, trivial⟩
  · exact ⟨rfl, (listed_symbolOf f.name).1⟩
  · exact ⟨rfl, (listed_symbolOf f.name).2⟩

theorem Gen.Routines.unique (h : Routines topLevel g (lastOfName p.functions) l.routines g')
    (hcells : (l.cells.map (·.1)).Nodup) : (l.labels.map Label.text).Nodup := by
  have hnames := nodup_lastOfName p.functions
  have hdata := l.part_dataLabels
  have hroutines := h.part_placed hnames
  have hhandlers : ∀ label ∈ Assembly.placed handlers, label.part = 5 := by
    rw [placed_handlers]
    decide
  refine Label.nodup_text (nodup_append_of_lt (f := Label.part) 4 (nodup_append_of_lt
    (f := Label.part) 3 (Listing.nodup_dataLabels hcells) (h.placed hnames).1 hdata ?_) ?_ ?_ ?_) ?_
  · exact fun label hl => by rw [(hroutines label hl).1]; decide
  · rw [placed_handlers]
    decide
  · exact List.forall_mem_append.mpr ⟨fun label hl => Nat.le_succ_of_le (hdata label hl),
      fun label hl => Nat.le_of_eq (hroutines label hl).1⟩
  · exact fun label hl => by rw [hhandlers label hl]; decide
  · refine List.forall_mem_append.mpr ⟨List.forall_mem_append.mpr ⟨fun label hl => ?_,
      fun label hl => (hroutines label hl).2⟩, fun label hl => ?_⟩
    · have hle := hdata label hl
      exact Label.listed_of_part (by omega) (by omega)
    · have heq := hhandlers label hl
      exact Label.listed_of_part (by omega) (by omega)

/-- Jumps of a function stay in it, or lead to a handler. -/
theorem Gen.MadeFrom.jumps {cells : List Slot} (h : MadeFrom cells r g₁ returns t) :
    ∀ target ∈ Assembly.jumps r.code,
      target ∈ Assembly.placed r.code ∨
        ∃ t, target = .trap t ∧ target ∈ Assembly.placed handlers := by
  intro target ht
  rw [jumps_code] at ht
  rw [placed_code]
  rcases (h.made.labelled (List.cons_ne_nil _ _)).exits target ht with hp | he
  · exact .inl (List.mem_cons_of_mem _ (List.mem_append_left _ hp))
  · rcases h.exit he with rfl | ⟨trap, rfl⟩
    · exact .inl (List.mem_cons_of_mem _ (List.mem_append_right _ (List.mem_singleton.mpr rfl)))
    · refine .inr ⟨trap, rfl, ?_⟩
      rw [placed_handlers]
      exact List.mem_map_of_mem (by cases trap <;> decide)

/-- What an instruction of a function refers to is there behind the function. -/
theorem Gen.MadeFrom.refers {cells : List Slot} (h : MadeFrom cells r g₁ returns t)
    (hg : Celled cells g₁) {i : Instruction} (hi : i ∈ r.code)
    (hn : i.references ≠ [] ∨ i.callee?.isSome) : t.Refers cells i :=
  h.made.refers (List.cons_ne_nil _ _) (hg.entry _) i (refers_code hi hn)

/-- Calls of a function name functions of the program. -/
theorem Gen.MadeFrom.calls {cells : List Slot} (h : MadeFrom cells r g₁ returns t)
    (hg : Anchored p cells g₁) : ∀ callee ∈ callees r.code,
      ∃ f ∈ p.functions, callee = .symbol (symbolOf f.name) := by
  intro callee hc
  obtain ⟨i, hi, hcallee⟩ := List.mem_filterMap.mp hc
  obtain ⟨name, signature, hs, rfl⟩ :=
    (h.refers hg.celled hi (.inr (by rw [hcallee]; rfl))).callee callee hcallee
  have hsame : t.generator.signatures = g₁.signatures := h.before.signatures
  rw [hsame] at hs
  obtain ⟨f, hf, hsymbol⟩ := hg.known name signature hs
  exact ⟨f, hf, by rw [hsymbol]⟩

/-- Labels that a function refers to are in the data sections. -/
theorem Gen.MadeFrom.defined (hregistered : Registered p topLevel g)
    (h : MadeFrom (cellsOf topLevel) r g₁ returns t) (hg : Celled (cellsOf topLevel) g₁)
    (hcells : l.cells.map (·.1) = cellNames [] (p.topLevel.filterMap declared?))
    (hstrings : t.generator.strings.size ≤ l.strings.length)
    (hfloats : t.generator.floats.size ≤ l.floats.length) :
    ∀ label ∈ references r.code, label ∈ l.dataLabels := by
  intro label hl
  obtain ⟨i, hi, hmem⟩ := List.mem_flatMap.mp hl
  have hrefers := h.refers hg hi (.inl (List.ne_nil_of_mem hmem))
  rcases List.mem_append.mp hmem with htaken | hmemory
  · exact l.mem_dataLabels_of_defines hstrings (hrefers.taken label (Option.mem_toList.mp htaken))
  obtain ⟨m, hm, hlabel⟩ := List.mem_filterMap.mp hmemory
  rcases (hrefers.memories m hm).label (h.made.tidy (hg.entry _)) (outside_cellsOf hregistered)
    hlabel with ⟨slot, hslot, name, hlocation, rfl⟩ | ⟨index, hindex, rfl⟩
  · have hname := List.mem_map_of_mem (f := Slot.location) hslot
    rw [hlocation, hregistered.locations, ← hcells] at hname
    obtain ⟨_, hname, heq⟩ := List.mem_map.mp hname
    cases heq
    exact l.mem_dataLabels_cell hname
  · exact l.mem_dataLabels_float (Nat.lt_of_lt_of_le hindex hfloats)

end

/-- The listing of a program whose globals are named by words is closed. -/
theorem Program.closed_of_generated {p : Program} {l : Listing} {g' : Generator}
    (h : Gen.program p .new = .ok l g')
    (hwords : ∀ name ∈ p.topLevel.filterMap declared?, IsWord name) : l.Closed := by
  obtain ⟨topLevel, g, hregistered, hroutines, hcells, hstrings, hfloats⟩ := routines_program h
  have hout := outside_cellsOf hregistered
  have hmade := fun {r : Routine} (hr : r ∈ l.routines) =>
    hroutines.made (p := Anchored p (cellsOf topLevel)) (fun hm hp => hp.behind hm)
      ⟨hregistered.globals, hregistered.known⟩ hr
  constructor
  · exact hroutines.unique (by rw [hcells]; exact nodup_cellNames hwords)
  · intro r hr
    obtain ⟨f, -, g₁, t, -, -, hm, -⟩ := hmade hr
    exact hm.jumps
  · intro r hr callee hc
    obtain ⟨f, -, g₁, t, hg, -, hm, -⟩ := hmade hr
    obtain ⟨f', hf', rfl⟩ := hm.calls hg callee hc
    obtain ⟨f'', hf'', hname⟩ := exists_lastOfName hf'
    have hsymbol : symbolOf f''.name ∈ l.routines.map (·.symbol) := by
      rw [hroutines.symbols]
      exact List.mem_map_of_mem hf''
    obtain ⟨r', hr', hs⟩ := List.mem_map.mp hsymbol
    exact ⟨r', hr', by rw [hs, hname]⟩
  · intro r hr label hl
    obtain ⟨f, -, g₁, t, hg, -, hm, hs, hf⟩ := hmade hr
    rw [references_append] at hl
    rcases List.mem_append.mp hl with hl | hl
    · exact hm.defined hregistered hg.celled hcells (by rw [hstrings]; exact hs.length_le)
        (by rw [hfloats]; exact hf.length_le) label hl
    · rw [references_handlers] at hl
      obtain ⟨trap, -, rfl⟩ := List.mem_map.mp hl
      exact l.mem_dataLabels_common (by cases trap <;> decide)

/-- The listing of every source that compiles is closed. -/
theorem closed_of_compileSource {source file : String} {c : Compiled}
    (h : compileSource source file = .ok c) : c.listing.Closed := by
  unfold compileSource at h
  split at h
  · cases h
  · next p hp =>
    split at h
    · next hc =>
      cases h
      obtain ⟨g, hg⟩ := Program.generated_of_compile hc
      refine Program.closed_of_generated hg fun name hname => ?_
      obtain ⟨b, hb, hdeclared⟩ := List.mem_filterMap.mp hname
      cases b with
      | declare =>
        cases hdeclared
        exact Program.word_of_declared hp (List.mem_filter.mp hb).1
      | _ => cases hdeclared
    · cases h

/-- A global that is declared twice, and a function that is declared twice. -/
theorem closed_of_compileSource_redeclared :
    let source := "var x = 1\nvar x = 2.5\nfun f() {}\nfun f() { println(x) }\nfun main() { f() }"
    ∃ c, compileSource source "redeclared.kt" = .ok c ∧
      c.listing.cells.map (·.1) = ["x", "x.1"] ∧
      c.listing.routines.map (·.symbol) = ["kt_f", "main"] ∧ c.listing.Closed := by
  intro source
  have hk : (compileSource source "redeclared.kt").toOption.any (fun c =>
      c.listing.cells.map (·.1) = ["x", "x.1"] ∧
        c.listing.routines.map (·.symbol) = ["kt_f", "main"]) = true := by
    decide +kernel
  obtain ⟨c, hc, hk⟩ := exists_of_any hk
  obtain ⟨hcells, hsymbols⟩ := of_decide_eq_true hk
  exact ⟨c, hc, hcells, hsymbols, closed_of_compileSource hc⟩

end ScriptLang
