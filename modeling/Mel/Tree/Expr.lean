import Mel.Numeral.Integer
import Mel.Quoted
import Mel.Token.Basic

/-!
# Expressions

An expression keeps the tokens it was made from. What it says besides, such as the name or the value,
is usually read off a token, and the functions `of…` do so.
-/

namespace Mel

structure Identifier where
  token : Token
  name : String
  deriving DecidableEq

def Identifier.ofToken (token : Token) : Identifier := ⟨token, token.literal⟩

inductive Expr where
  | identifier (id : Identifier)
  | integer (token : Token) (value : Int64)
  /-- The value has its escapes decoded. -/
  | string (token : Token) (value : String)
  | infixOp (token : Token) (operator : String) (left right : Expr)
  | prefixOp (token : Token) (operator : String) (operand : Expr)
  | postfixOp (token : Token) (operator : String) (operand : Expr)
  | ternary (question colon : Token) (condition consequence alternative : Expr)
  deriving DecidableEq

namespace Expr

/-! ## From tokens -/

def ofNumeral (token : Token) : Except Numeral.Error Expr :=
  (Numeral.integer (.signed .w64) token.literal).map fun n => integer token (Int64.ofNat n)

def ofQuoted (token : Token) : Expr := string token (Quoted.value token.literal)

def ofInfix (token : Token) (left right : Expr) : Expr := infixOp token token.literal left right

def ofPrefix (token : Token) (operand : Expr) : Expr := prefixOp token token.literal operand

def ofPostfix (token : Token) (operand : Expr) : Expr := postfixOp token token.literal operand

/-! ## As text -/

/-- The canonical text. Every operation stands in parentheses, and literals stand as they were read. -/
def text : Expr → String
  | identifier id => id.name
  | integer token _ => token.literal
  | string token _ => token.literal
  | infixOp _ operator left right => "(" ++ left.text ++ " " ++ operator ++ " " ++ right.text ++ ")"
  | prefixOp _ operator operand => "(" ++ operator ++ operand.text ++ ")"
  | postfixOp _ operator operand => "(" ++ operand.text ++ operator ++ ")"
  | ternary question colon condition consequence alternative =>
    "(" ++ condition.text ++ " " ++ question.literal ++ " " ++ consequence.text ++ " "
      ++ colon.literal ++ " " ++ alternative.text ++ ")"

/-- The literal of the token that introduced the expression: the operator of an operation, and the
question mark of a ternary one. -/
def tokenLiteral : Expr → String
  | identifier id => id.token.literal
  | integer token _ | string token _ => token.literal
  | infixOp token _ _ _ | prefixOp token _ _ | postfixOp token _ _ => token.literal
  | ternary question _ _ _ _ => question.literal

/-! ## Its parts -/

def preorder (expr : Expr) : List Expr :=
  expr ::
    match expr with
    | identifier _ | integer _ _ | string _ _ => []
    | infixOp _ _ left right => left.preorder ++ right.preorder
    | prefixOp _ _ operand | postfixOp _ _ operand => operand.preorder
    | ternary _ _ condition consequence alternative =>
      condition.preorder ++ consequence.preorder ++ alternative.preorder

end Expr

end Mel
