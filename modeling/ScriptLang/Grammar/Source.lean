import ScriptLang.Grammar.Parser
import ScriptLang.Token.Lexer

/-!
# From source text to program trees
-/

namespace ScriptLang

/-- The program a source spells. -/
def Program.ofSource (source file : String) : Except Halt Program :=
  match Token.ofSource source file with
  | .ok tokens => Program.ofTokens tokens file
  | .error fault => .error (.fault fault)

end ScriptLang
