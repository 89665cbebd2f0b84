import Mel.Tree.Statement

/-!
# Nodes

A node is anything that can stand at the top of a tree. Two nodes are equal if they are of one sort and
agree in every token and value.
-/

namespace Mel

inductive Node where
  | expr (expr : Expr)
  | statement (statement : Statement)
  | program (program : Program)
  deriving DecidableEq

namespace Node

def text : Node → String
  | expr e => e.text
  | statement s => s.text
  | program p => p.text

def tokenLiteral : Node → String
  | expr e => e.tokenLiteral
  | statement s => s.tokenLiteral
  | program p => p.tokenLiteral

end Node

/-! ## Walking -/

def Statement.walk (statement : Statement) : List Node :=
  .statement statement ::
    match statement with
    | expression _ value | ret _ value => value.elim [] fun e => e.preorder.map .expr
    | declaration _ name value =>
      .expr (.identifier name) :: value.elim [] fun e => e.preorder.map .expr

/-- All nodes from the top down, each before its parts. A program shows only its statements. -/
def Node.walk : Node → List Node
  | expr e => e.preorder.map .expr
  | statement s => s.walk
  | program p => p.statements.flatMap Statement.walk

end Mel
