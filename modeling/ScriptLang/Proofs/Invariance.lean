import ScriptLang.Proofs.Codegen.Rearrangement.Program
import ScriptLang.Proofs.Evaluation.Transcript
import ScriptLang.Proofs.Grammar.Progress
import ScriptLang.Proofs.Grammar.Spans

/-!
# What does not show

A program shows its transcript when it is run, and its listing with the causes of
diagnostics when it is compiled. Spans and parentheses show in neither. The order of
functions that have names of their own does not show in a transcript, and shows in a
listing by the numbers of local labels and the places of constants alone.
-/

namespace ScriptLang

open Assembly

namespace Program

/-- Where tokens stand does not show: tokens spelled alike make trees that are equal up to
spans and show the same, or on both sides there is a fault, of one cause. -/
theorem shows_same_of_spelling_eq {tokens tokens' : List Token}
    (h : tokens.map Token.spelling = tokens'.map Token.spelling) (file file' : String) :
    match ofTokens tokens file, ofTokens tokens' file' with
    | .ok p, .ok q => p.bare = q.bare ∧ (∀ fuel, p.transcript fuel = q.transcript fuel) ∧
        p.product = q.product
    | .error (.fault f), .error (.fault f') => f.cause = f'.cause
    | _, _ => False := by
  have hshows := ofTokens_shows h file file'
  rcases ofTokens_answers tokens file with ⟨p, hp⟩ | ⟨f, hf⟩
  · rcases ofTokens_answers tokens' file' with ⟨q, hq⟩ | ⟨f', hf'⟩
    · rw [hp, hq] at hshows ⊢
      have hcore := core_eq_of_bare_eq hshows
      exact ⟨hshows, transcript_eq_of_core_eq hcore, product_eq_of_core_eq hcore⟩
    · rw [hp, hf'] at hshows
      exact hshows.elim
  · rcases ofTokens_answers tokens' file' with ⟨q, hq⟩ | ⟨f', hf'⟩
    · rw [hf, hq] at hshows
      exact hshows.elim
    · rw [hf, hf'] at hshows ⊢
      exact Option.some.inj hshows

/-- A program on one line of one file, and on two lines of another. -/
theorem shows_same_of_spelling_eq_lines :
    let tokens (file : String) (gap : Nat) : List Token := [
      ⟨.funWord, "fun", ⟨⟨0, file⟩, ⟨3, file⟩⟩⟩,
      ⟨.identifier, "main", ⟨⟨3 + gap, file⟩, ⟨7 + gap, file⟩⟩⟩,
      ⟨.openParen, "(", ⟨⟨7 + gap, file⟩, ⟨8 + gap, file⟩⟩⟩,
      ⟨.closeParen, ")", ⟨⟨8 + gap, file⟩, ⟨9 + gap, file⟩⟩⟩,
      ⟨.openCurly, "\x7b", ⟨⟨9 + gap, file⟩, ⟨10 + gap, file⟩⟩⟩,
      ⟨.closeCurly, "\x7d", ⟨⟨10 + gap, file⟩, ⟨11 + gap, file⟩⟩⟩]
    (tokens "a" 1).map Token.spelling = (tokens "b" 6).map Token.spelling ∧
    ∃ p q, ofTokens (tokens "a" 1) "a" = .ok p ∧ ofTokens (tokens "b" 6) "b" = .ok q ∧
      p.bare = q.bare ∧ (∀ fuel, p.transcript fuel = q.transcript fuel) ∧
      p.product = q.product := by
  intro tokens
  have h : (tokens "a" 1).map Token.spelling = (tokens "b" 6).map Token.spelling := rfl
  obtain ⟨p, hp⟩ : ∃ p, ofTokens (tokens "a" 1) "a" = .ok p := ⟨_, rfl⟩
  obtain ⟨q, hq⟩ : ∃ q, ofTokens (tokens "b" 6) "b" = .ok q := ⟨_, rfl⟩
  have hshows := shows_same_of_spelling_eq h "a" "b"
  rw [hp, hq] at hshows
  exact ⟨h, p, q, hp, hq, hshows⟩

/-- Parentheses only group: programs of one core show the same. -/
theorem shows_same_of_core_eq {p q : Program} (h : p.core = q.core) :
    (∀ fuel, p.transcript fuel = q.transcript fuel) ∧ p.product = q.product :=
  ⟨transcript_eq_of_core_eq h, product_eq_of_core_eq h⟩

/-- Parentheses around a range to loop over, and around a name that is stepped. -/
theorem shows_same_of_core_eq_group :
    let program (range step : Expr) : Program := ⟨[.function ⟨"main", [], .unit, ⟨[
      .declare "n" false none (some (.integer 0 default)) default,
      .forLoop "i" range (.expression step) default], default⟩, default⟩], default⟩
    let range : Expr := .range (.integer 1 default) (.integer 3 default) false false none default
    let step (target : Expr) : Expr := .unary (.step .postIncrement) target default
    let name : Expr := .name "n" default
    let p := program range (step name)
    let q := program (.group (.group range default) default)
      (.group (step (.group name default)) default)
    p.core = q.core ∧ (∀ fuel, p.transcript fuel = q.transcript fuel) ∧ p.product = q.product := by
  intro program range step name p q
  have h : p.core = q.core := rfl
  exact ⟨h, shows_same_of_core_eq h⟩

/-- The functions of a program may stand in any order, and anywhere between the other
statements of the top level, if no two of them share a name. -/
theorem rearranged_of_perm {p q : Program} (hn : (p.functions.map (·.name)).Nodup)
    (hp : (p.functions.map Function.core).Perm (q.functions.map Function.core))
    (htop : p.topLevel.map Stmt.core = q.topLevel.map Stmt.core) :
    (∀ fuel, p.transcript fuel = q.transcript fuel) ∧
      match p.product, q.product with
      | .ok (l, _), .ok (l', _) => ∃ ρ : Renumbering, l.Rearranged ρ l'
      | .error cause, .error cause' => cause = cause'
      | _, _ => False :=
  ⟨transcript_eq_of_perm hn hp htop, product_rearranged hn hp htop⟩

/-- Two functions that each print a text of their own, before and behind a declaration. -/
theorem rearranged_of_perm_swap :
    let greet (name text : String) : Function := ⟨name, [], .unit,
      ⟨[.print (some (.string text default)) true default], default⟩, default⟩
    let total : Stmt := .declare "total" false none (some (.float 0.5 default)) default
    let p : Program := ⟨[.function (greet "main" "hello"), total,
      .function (greet "other" "bye")], default⟩
    let q : Program := ⟨[.function (greet "other" "bye"), .function (greet "main" "hello"),
      total], default⟩
    ((p.functions.map (·.name)).Nodup ∧
      (p.functions.map Function.core).Perm (q.functions.map Function.core) ∧
      p.topLevel.map Stmt.core = q.topLevel.map Stmt.core) ∧
    (∀ fuel, p.transcript fuel = q.transcript fuel) ∧
      match p.product, q.product with
      | .ok (l, _), .ok (l', _) => ∃ ρ : Renumbering, l.Rearranged ρ l'
      | .error cause, .error cause' => cause = cause'
      | _, _ => False := by
  intro greet total p q
  have hn : (p.functions.map (·.name)).Nodup := by decide
  have hp : (p.functions.map Function.core).Perm (q.functions.map Function.core) :=
    List.Perm.swap (greet "other" "bye").core (greet "main" "hello").core []
  exact ⟨⟨hn, hp, rfl⟩, rearranged_of_perm hn hp rfl⟩

end Program

end ScriptLang
