import Mel.Numeral.Integer
import Mel.Quoted
import Mel.Token.Basic

/-!
# What a token stands for

Integers and quoted texts are the tokens that stand for a value.
-/

namespace Mel.Token

inductive Content where
  | nothing
  | integer (value : Except Numeral.Error Nat)
  | text (body value : String)

/-- The value is that of a signed integer of 64 bits. -/
def content (token : Token) : Content :=
  match token.kind with
  | .integer | .hexInteger => .integer (Numeral.integer (.signed .w64) token.literal)
  | .stringLiteral => .text (Quoted.body token.literal) (Quoted.value token.literal)
  | _ => .nothing

end Mel.Token
