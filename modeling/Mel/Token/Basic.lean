import Mel.Token.Kind

/-! # Tokens -/

namespace Mel

/-- A token is a kind with the exact text that was read for it. -/
structure Token where
  kind : TokenKind
  literal : String
  deriving DecidableEq

namespace Token

def eof : Token := ⟨.eof, ""⟩

/-- The kind alone decides, whatever the literal. -/
def isEof (token : Token) : Bool := token.kind = .eof

end Token

end Mel
