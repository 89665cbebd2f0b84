import Mel.Tree.Expr

/-! # Statements and programs -/

namespace Mel

inductive Statement where
  /-- An expression alone. The token is its first one. -/
  | expression (token : Token) (expr : Option Expr)
  /-- `string $name = value;` -/
  | declaration (token : Token) (name : Identifier) (value : Option Expr)
  /-- `return value;` -/
  | ret (token : Token) (value : Option Expr)
  deriving DecidableEq

namespace Statement

/-- The canonical text. A missing expression leaves its place empty. -/
def text : Statement → String
  | expression _ expr => expr.elim "" Expr.text
  | declaration token name value =>
    token.literal ++ " " ++ name.name ++ " = " ++ value.elim "" Expr.text ++ ";"
  | ret token value => token.literal ++ " " ++ value.elim "" Expr.text ++ ";"

def tokenLiteral : Statement → String
  | expression token _ | declaration token _ _ | ret token _ => token.literal

end Statement

structure Program where
  statements : List Statement
  deriving DecidableEq

namespace Program

def empty : Program := ⟨[]⟩

def text (program : Program) : String := String.join (program.statements.map Statement.text)

def tokenLiteral (program : Program) : String :=
  program.statements.head?.elim "" Statement.tokenLiteral

def append (program : Program) (statement : Statement) : Program :=
  ⟨program.statements ++ [statement]⟩

def dropLast (program : Program) : Program := ⟨program.statements.dropLast⟩

end Program

end Mel
