import Mel.Scanner.Basic
import Mel.Tree.Node

/-!
# The workbench

Trees are put together on a workbench: a scanner supplies tokens, two stacks hold the tokens and the
expressions that are not yet used, and finished statements go to the end of a program. An action that
needs something the stacks do not hold fails.
-/

namespace Mel

structure Workbench where
  scanner : Scanner
  tokens : List Token
  exprs : List Expr
  program : Program

namespace Workbench

def empty : Workbench := ⟨.ofText "", [], [], .empty⟩

abbrev Action := StateT Workbench Option

/-! ## Tokens -/

def load (text : String) : Action Unit :=
  modify fun bench => { bench with scanner := .ofText text }

def skip : Action Token :=
  modifyGet fun bench =>
    let (token, scanner) := bench.scanner.nextToken
    (token, { bench with scanner })

def pushToken (token : Token) : Action Token :=
  modifyGet fun bench => (token, { bench with tokens := token :: bench.tokens })

def read : Action Token := skip >>= pushToken

def popToken : Action Token := do
  let bench ← get
  match bench.tokens with
  | [] => failure
  | token :: tokens =>
    set { bench with tokens }
    return token

/-! ## Expressions -/

def pushExpr (expr : Expr) : Action Expr :=
  modifyGet fun bench => (expr, { bench with exprs := expr :: bench.exprs })

def popExpr? : Action (Option Expr) :=
  modifyGet fun bench => (bench.exprs.head?, { bench with exprs := bench.exprs.tail })

def popExpr : Action Expr := do
  match ← popExpr? with
  | none => failure
  | some expr => return expr

def identifier : Action Expr := do
  pushExpr (.identifier (.ofToken (← popToken)))

/-- The token is gone even if it has no value. -/
def integer : Action (Except Numeral.Error Expr) := do
  match Expr.ofNumeral (← popToken) with
  | .ok expr => return .ok (← pushExpr expr)
  | .error error => return .error error

def string : Action Expr := do
  pushExpr (.ofQuoted (← popToken))

/-- The right operand lies on top of the left one. -/
def infixOp : Action Expr := do
  let token ← popToken
  let right ← popExpr
  let left ← popExpr
  pushExpr (.ofInfix token left right)

def prefixOp : Action Expr := do
  let token ← popToken
  pushExpr (.ofPrefix token (← popExpr))

def postfixOp : Action Expr := do
  let token ← popToken
  pushExpr (.ofPostfix token (← popExpr))

/-- Tokens and operands lie in the order they are written in, the last of each on top. -/
def ternary : Action Expr := do
  let colon ← popToken
  let question ← popToken
  let alternative ← popExpr
  let consequence ← popExpr
  let condition ← popExpr
  pushExpr (.ternary question colon condition consequence alternative)

def duplicate : Action Expr := do
  let expr ← popExpr
  discard (pushExpr expr)
  pushExpr expr

def popPair : Action (Expr × Expr) := do
  let later ← popExpr
  let earlier ← popExpr
  return (earlier, later)

/-! ## Statements -/

def append (statement : Statement) : Action Statement :=
  modifyGet fun bench => (statement, { bench with program := bench.program.append statement })

def expressionStatement : Action Statement := do
  let token ← popToken
  append (.expression token (← popExpr?))

def returnStatement : Action Statement := do
  let token ← popToken
  append (.ret token (← popExpr?))

/-- The name lies on top of the keyword. -/
def declarationStatement : Action Statement := do
  let name ← popToken
  let keyword ← popToken
  append (.declaration keyword (.ofToken name) (← popExpr?))

def dropStatement : Action Program :=
  modifyGet fun bench =>
    let program := bench.program.dropLast
    (program, { bench with program })

def finished : Action Program := do
  return (← get).program

end Workbench

end Mel
