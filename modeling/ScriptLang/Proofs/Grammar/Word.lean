import ScriptLang.Grammar.Source
import ScriptLang.Proofs.Grammar.Derivation
import ScriptLang.Proofs.Token.Pattern

/-!
# Names are words

A name in a program that was read from a source is spelled as the lexer spells words: by
letters, digits and underscores.
-/

namespace ScriptLang

/-- Letters, digits and underscores. -/
def IsWord (name : String) : Prop := ∀ c ∈ name.toList, Lexeme.continuesWord c = true

namespace Lexeme

theorem continuesWord_of_starts {c : Char} (h : startsWord c = true) : continuesWord c = true := by
  unfold startsWord at h
  unfold continuesWord Char.isAlphanum
  grind

/-- Only words are identifiers. -/
theorem word_of_identifier {p : Pattern} {c : Char} {cs value : List Char} {n : Nat}
    (h : first? (c :: cs) = some (p, n))
    (hv : value? p (c :: cs.take (n - 1)) = some (.identifier, value)) :
    ∀ d ∈ value, continuesWord d = true := by
  obtain ⟨hmem, hlength⟩ := first?_mem h
  cases p with
  | blank | lineComment | blockComment => cases hv
  | number =>
    have hkind : ∀ cs, (numberValue cs).1 ≠ .identifier := by
      intro cs
      unfold numberValue
      split
      · exact nofun
      · exact nofun
      · split <;> exact nofun
    exact absurd (congrArg Prod.fst (Option.some.inj hv)) (hkind _)
  | text => cases hv
  | sign s k =>
    cases hv
    simp [Pattern.all] at hmem
  | word =>
    obtain rfl : c :: cs.take (n - 1) = value := congrArg Prod.snd (Option.some.inj hv)
    change (if startsWord c then some (1 + run continuesWord cs) else none) = some n at hlength
    split at hlength
    · next hstart =>
      cases hlength
      have htake : cs.take (1 + run continuesWord cs - 1) = cs.takeWhile continuesWord := by
        rw [Nat.add_sub_cancel_left, take_run]
      rw [htake]
      exact List.forall_mem_cons.mpr ⟨continuesWord_of_starts hstart, fun d hd =>
        List.all_eq_true.mp List.all_takeWhile d hd⟩
    · cases hlength

end Lexeme

namespace Token

theorem word_of_scan {file : String} {cs : List Char} {offset : Nat} {tokens : List Token}
    (h : scan file cs offset = .ok tokens) :
    ∀ t ∈ tokens, t.kind = .identifier → IsWord t.text := by
  fun_induction scan file cs offset generalizing tokens with
  | case1 offset =>
    cases h
    intro t ht hk
    cases List.mem_singleton.mp ht
    cases hk
  | case2 => cases h
  | case3 => cases h
  | case4 offset c rest pattern length hfirst lexeme stop tokens hscan hv =>
    rename_i ih
    cases h
    exact ih hscan
  | case5 offset c rest pattern length hfirst lexeme stop tokens hscan kind value hv =>
    rename_i ih
    cases h
    refine List.forall_mem_cons.mpr ⟨fun hk => ?_, ih hscan⟩
    cases hk
    rw [IsWord, String.toList_ofList]
    exact Lexeme.word_of_identifier hfirst hv

/-- The identifiers of a source are words. -/
theorem word_of_source {source file : String} {tokens : List Token}
    (h : ofSource source file = .ok tokens) :
    ∀ t ∈ tokens, t.kind = .identifier → IsWord t.text :=
  word_of_scan h

end Token

/-! ## Names in trees -/

theorem mem_of_mem_essentials {t : Terminal} {ts : List Terminal} (h : t ∈ essentials ts) :
    t ∈ ts := by
  fun_induction essentials ts <;> grind

/-- The terminals of a parsed program are those of tokens. -/
theorem Program.terminal_of_ofTokens {tokens : List Token} {file : String} {p : Program}
    (h : Program.ofTokens tokens file = .ok p) {u : Terminal} (hu : u ∈ p.terminals []) :
    ∃ t ∈ tokens, t.terminal = u := by
  unfold Program.ofTokens at h
  split at h
  case h_2 => cases h
  case h_1 body c hs =>
    cases h
    have hr := (Grammar.reading _).statements hs
    have he : c.current.kind = .eof := by simpa using hr.stop
    have hskim := hr.reads.skim (by simp [he])
    have hmem : u ∈ (Cursor.ofTokens tokens file).ahead :=
      mem_of_mem_essentials (by rw [hskim]; exact List.mem_append_left _ hu)
    obtain ⟨t, ht, htu⟩ := List.mem_map.mp hmem
    refine ⟨t, ?_, htu⟩
    unfold Cursor.ofTokens at ht
    split at ht
    · cases ht
    · split at ht
      · exact (List.dropLast_subset _) ht
      · exact ht

theorem Token.identifier_of_terminal {t : Token} {name : String} (h : t.terminal = .name name) :
    t.kind = .identifier ∧ t.text = name := by
  unfold terminal at h
  split at h
  · split at h <;> cases h
  · split at h <;> cases h
  · cases h
  · next hk =>
    cases h
    exact ⟨hk, rfl⟩
  · cases h

theorem Stmt.terminals_subset {body : List Stmt} {s : Stmt} (h : s ∈ body)
    (ends : List Terminal) : ∀ t ∈ s.terminals ends, t ∈ Stmt.listTerminals ends body := by
  induction body with
  | nil => cases h
  | cons b rest ih =>
    intro t ht
    rw [Stmt.listTerminals]
    rcases List.mem_cons.mp h with rfl | h
    · exact List.mem_append_left _ (List.mem_append_left _ ht)
    · exact List.mem_append_right _ (ih h t ht)

/-- The names that the top level of a program from a source declares are words. -/
theorem Program.word_of_declared {source file : String} {p : Program}
    (h : Program.ofSource source file = .ok p) {name : String} {constant : Bool}
    {type : Option DeclaredType} {value : Option Expr} {span : Span}
    (hs : .declare name constant type value span ∈ p.body) : IsWord name := by
  unfold Program.ofSource at h
  split at h
  · next tokens htokens =>
    have hterminal : .name name ∈ p.terminals [] :=
      Stmt.terminals_subset hs [] _ (by simp)
    obtain ⟨t, ht, hname⟩ := terminal_of_ofTokens h hterminal
    obtain ⟨hk, rfl⟩ := t.identifier_of_terminal hname
    exact Token.word_of_source htokens t ht hk
  · cases h

end ScriptLang
