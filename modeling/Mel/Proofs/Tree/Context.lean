import Mathlib.Data.List.Basic
import Mel.Proofs.Tree.Unique
import Mel.Tree.Node

/-!
# Expressions in their context

A context is a node that misses one expression. The text of the node is the text of that expression between two
texts of the context, so nothing but its own text shows which expression stands there (`text_fill`).
-/

namespace Mel

/-! ## An operation that misses an operand -/

inductive Frame where
  | infixLeft (token : Token) (operator : String) (right : Expr)
  | infixRight (token : Token) (operator : String) (left : Expr)
  | prefixOp (token : Token) (operator : String)
  | postfixOp (token : Token) (operator : String)
  | ternaryCondition (question colon : Token) (consequence alternative : Expr)
  | ternaryConsequence (question colon : Token) (condition alternative : Expr)
  | ternaryAlternative (question colon : Token) (condition consequence : Expr)

namespace Frame

def plug (frame : Frame) (operand : Expr) : Expr :=
  match frame with
  | infixLeft token operator right => .infixOp token operator operand right
  | infixRight token operator left => .infixOp token operator left operand
  | prefixOp token operator => .prefixOp token operator operand
  | postfixOp token operator => .postfixOp token operator operand
  | ternaryCondition question colon consequence alternative =>
    .ternary question colon operand consequence alternative
  | ternaryConsequence question colon condition alternative =>
    .ternary question colon condition operand alternative
  | ternaryAlternative question colon condition consequence =>
    .ternary question colon condition consequence operand

theorem text_plug (frame : Frame) : ∃ p q : String, ∀ e : Expr, (frame.plug e).text = p ++ e.text ++ q := by
  cases frame with
  | infixLeft token operator right =>
    exact ⟨"(", " " ++ operator ++ " " ++ right.text ++ ")", fun e => by simp [plug, Expr.text, String.append_assoc]⟩
  | infixRight token operator left =>
    exact ⟨"(" ++ left.text ++ " " ++ operator ++ " ", ")", fun e => rfl⟩
  | prefixOp token operator => exact ⟨"(" ++ operator, ")", fun e => rfl⟩
  | postfixOp token operator =>
    exact ⟨"(", operator ++ ")", fun e => by simp [plug, Expr.text, String.append_assoc]⟩
  | ternaryCondition question colon consequence alternative =>
    exact ⟨"(", " " ++ question.literal ++ " " ++ consequence.text ++ " " ++ colon.literal ++ " " ++
      alternative.text ++ ")", fun e => by simp [plug, Expr.text, String.append_assoc]⟩
  | ternaryConsequence question colon condition alternative =>
    exact ⟨"(" ++ condition.text ++ " " ++ question.literal ++ " ", " " ++ colon.literal ++ " " ++
      alternative.text ++ ")", fun e => by simp [plug, Expr.text, String.append_assoc]⟩
  | ternaryAlternative question colon condition consequence =>
    exact ⟨"(" ++ condition.text ++ " " ++ question.literal ++ " " ++ consequence.text ++ " " ++ colon.literal ++ " ",
      ")", fun e => rfl⟩

theorem tokenLiteral_plug (frame : Frame) (e e' : Expr) :
    (frame.plug e).tokenLiteral = (frame.plug e').tokenLiteral := by
  cases frame <;> rfl

theorem mem_children_iff (e x : Expr) : e ∈ x.children ↔ ∃ frame : Frame, frame.plug e = x := by
  constructor
  · intro h
    cases x with
    | identifier | integer | string => simp [Expr.children] at h
    | infixOp token operator left right =>
      simp only [Expr.children, List.mem_cons, List.not_mem_nil, or_false] at h
      rcases h with rfl | rfl
      · exact ⟨.infixLeft token operator right, rfl⟩
      · exact ⟨.infixRight token operator left, rfl⟩
    | prefixOp token operator operand =>
      obtain rfl : e = operand := by simpa [Expr.children] using h
      exact ⟨.prefixOp token operator, rfl⟩
    | postfixOp token operator operand =>
      obtain rfl : e = operand := by simpa [Expr.children] using h
      exact ⟨.postfixOp token operator, rfl⟩
    | ternary question colon condition consequence alternative =>
      simp only [Expr.children, List.mem_cons, List.not_mem_nil, or_false] at h
      rcases h with rfl | rfl | rfl
      · exact ⟨.ternaryCondition question colon consequence alternative, rfl⟩
      · exact ⟨.ternaryConsequence question colon condition alternative, rfl⟩
      · exact ⟨.ternaryAlternative question colon condition consequence, rfl⟩
  · rintro ⟨frame, rfl⟩
    cases frame <;> simp [plug, Expr.children]

/-! ### Operations within operations -/

def plugAll (frames : List Frame) (e : Expr) : Expr := frames.foldr plug e

theorem text_plugAll (frames : List Frame) :
    ∃ p q : String, ∀ e : Expr, (plugAll frames e).text = p ++ e.text ++ q := by
  induction frames with
  | nil => exact ⟨"", "", fun e => by simp [plugAll]⟩
  | cons frame frames ih =>
    obtain ⟨p, q, hinner⟩ := ih
    obtain ⟨p', q', houter⟩ := text_plug frame
    refine ⟨p' ++ p, q ++ q', fun e => ?_⟩
    have hcons : plugAll (frame :: frames) e = frame.plug (plugAll frames e) := rfl
    rw [hcons, houter, hinner]
    simp only [String.append_assoc]

theorem mem_preorder_iff (e x : Expr) : e ∈ x.preorder ↔ ∃ frames : List Frame, plugAll frames e = x := by
  constructor
  · -- A part is the whole, or a part of an operand.
    induction hsize : sizeOf x using Nat.strong_induction_on generalizing x with
    | _ size ih =>
      intro h
      rw [Expr.preorder_children, List.mem_cons, List.mem_flatMap] at h
      rcases h with rfl | ⟨y, hy, h⟩
      · exact ⟨[], rfl⟩
      · obtain ⟨frames, rfl⟩ := ih (sizeOf y) (hsize ▸ Expr.sizeOf_child x y hy) y rfl h
        obtain ⟨frame, rfl⟩ := (mem_children_iff _ x).mp hy
        exact ⟨frame :: frames, rfl⟩
  · rintro ⟨frames, rfl⟩
    induction frames with
    | nil =>
      rw [Expr.preorder_children]
      exact List.mem_cons_self
    | cons frame frames ih =>
      rw [Expr.preorder_children, List.mem_cons, List.mem_flatMap]
      exact .inr ⟨_, (mem_children_iff _ _).mpr ⟨frame, rfl⟩, ih⟩

end Frame

/-! ## A statement that misses its expression -/

namespace Statement

def value : Statement → Option Expr
  | expression _ expr => expr
  | declaration _ _ value => value
  | ret _ value => value

inductive Hole where
  | expression (token : Token)
  | declaration (token : Token) (name : Identifier)
  | ret (token : Token)

def Hole.put (hole : Hole) (e : Expr) : Statement :=
  match hole with
  | expression token => .expression token (some e)
  | declaration token name => .declaration token name (some e)
  | ret token => .ret token (some e)

theorem text_put (hole : Hole) : ∃ p q : String, ∀ e : Expr, (hole.put e).text = p ++ e.text ++ q := by
  cases hole with
  | expression token => exact ⟨"", "", fun e => by simp [Hole.put, text]⟩
  | declaration token name => exact ⟨token.literal ++ " " ++ name.name ++ " = ", ";", fun e => rfl⟩
  | ret token => exact ⟨token.literal ++ " ", ";", fun e => rfl⟩

theorem tokenLiteral_put (hole : Hole) (e e' : Expr) : (hole.put e).tokenLiteral = (hole.put e').tokenLiteral := by
  cases hole <;> rfl

theorem value_eq_some_iff (s : Statement) (e : Expr) : s.value = some e ↔ ∃ hole : Hole, hole.put e = s := by
  constructor
  · intro h
    cases s with
    | expression token expr =>
      obtain rfl : expr = some e := h
      exact ⟨.expression token, rfl⟩
    | declaration token name value =>
      obtain rfl : value = some e := h
      exact ⟨.declaration token name, rfl⟩
    | ret token value =>
      obtain rfl : value = some e := h
      exact ⟨.ret token, rfl⟩
  · rintro ⟨hole, rfl⟩
    cases hole <;> rfl

/-- All expressions of a statement. The name that a declaration makes is none of them. -/
def exprs (s : Statement) : List Expr := s.value.elim [] Expr.preorder

theorem mem_exprs_iff (s : Statement) (e : Expr) :
    e ∈ s.exprs ↔ ∃ (hole : Hole) (frames : List Frame), hole.put (Frame.plugAll frames e) = s := by
  constructor
  · intro h
    cases hvalue : s.value with
    | none => simp [exprs, hvalue] at h
    | some x =>
      rw [exprs, hvalue, Option.elim_some] at h
      obtain ⟨frames, rfl⟩ := (Frame.mem_preorder_iff e x).mp h
      obtain ⟨hole, hput⟩ := (value_eq_some_iff s _).mp hvalue
      exact ⟨hole, frames, hput⟩
  · rintro ⟨hole, frames, hput⟩
    rw [exprs, (value_eq_some_iff s _).mpr ⟨hole, hput⟩, Option.elim_some, Frame.mem_preorder_iff]
    exact ⟨frames, rfl⟩

end Statement

/-! ## A node that misses an expression -/

/-- What a node is besides the one expression that stands highest in it. -/
inductive Seat where
  | expr
  | statement (hole : Statement.Hole)
  | program (before : List Statement) (hole : Statement.Hole) (after : List Statement)

def Seat.put (seat : Seat) (e : Expr) : Node :=
  match seat with
  | expr => .expr e
  | statement hole => .statement (hole.put e)
  | program before hole after => .program ⟨before ++ hole.put e :: after⟩

structure Context where
  seat : Seat
  frames : List Frame

namespace Context

def top : Context := ⟨.expr, []⟩

def fill (context : Context) (e : Expr) : Node := context.seat.put (Frame.plugAll context.frames e)

end Context

def Node.exprs : Node → List Expr
  | expr e => e.preorder
  | statement s => s.exprs
  | program p => p.statements.flatMap Statement.exprs

namespace Context

theorem text_put (seat : Seat) : ∃ p q : String, ∀ e : Expr, (seat.put e).text = p ++ e.text ++ q := by
  cases seat with
  | expr => exact ⟨"", "", fun e => by simp [Seat.put, Node.text]⟩
  | statement hole => exact Statement.text_put hole
  | program before hole after =>
    obtain ⟨p, q, hput⟩ := Statement.text_put hole
    refine ⟨Program.text ⟨before⟩ ++ p, q ++ Program.text ⟨after⟩, fun e => ?_⟩
    have hprogram : ((Seat.program before hole after).put e).text =
        Program.text ⟨before⟩ ++ ((hole.put e).text ++ Program.text ⟨after⟩) := by
      simp only [Seat.put, Node.text, Program.text, List.map_append, List.map_cons, String.join_append,
        String.join_cons]
    rw [hprogram, hput]
    simp only [String.append_assoc]

theorem exists_text_fill (context : Context) :
    ∃ p q : String, ∀ e : Expr, (context.fill e).text = p ++ e.text ++ q := by
  obtain ⟨p, q, hinner⟩ := Frame.text_plugAll context.frames
  obtain ⟨p', q', houter⟩ := text_put context.seat
  refine ⟨p' ++ p, q ++ q', fun e => ?_⟩
  rw [fill, houter, hinner]
  simp only [String.append_assoc]

theorem text_fill_inj (context : Context) (e e' : Expr) :
    (context.fill e).text = (context.fill e').text ↔ e.text = e'.text := by
  obtain ⟨p, q, hfill⟩ := exists_text_fill context
  rw [hfill, hfill, String.append_left_inj, String.append_right_inj]

theorem tokenLiteral_fill (context : Context) (h : context ≠ top) (e e' : Expr) :
    (context.fill e).tokenLiteral = (context.fill e').tokenLiteral := by
  obtain ⟨seat, frames⟩ := context
  cases seat with
  | expr =>
    cases frames with
    | nil => exact absurd rfl h
    | cons frame frames => exact Frame.tokenLiteral_plug frame (Frame.plugAll frames e) (Frame.plugAll frames e')
  | statement hole => exact Statement.tokenLiteral_put hole _ _
  | program before hole after =>
    -- Only the first statement counts, and it may be the one that changes.
    cases before with
    | nil => exact Statement.tokenLiteral_put hole _ _
    | cons first before => rfl

theorem mem_exprs_iff (node : Node) (e : Expr) : e ∈ node.exprs ↔ ∃ context : Context, context.fill e = node := by
  constructor
  · intro h
    cases node with
    | expr x =>
      obtain ⟨frames, rfl⟩ := (Frame.mem_preorder_iff e x).mp h
      exact ⟨⟨.expr, frames⟩, rfl⟩
    | statement s =>
      obtain ⟨hole, frames, rfl⟩ := (Statement.mem_exprs_iff s e).mp h
      exact ⟨⟨.statement hole, frames⟩, rfl⟩
    | program p =>
      obtain ⟨s, hs, h⟩ := List.mem_flatMap.mp h
      obtain ⟨hole, frames, rfl⟩ := (Statement.mem_exprs_iff s e).mp h
      obtain ⟨before, after, hsplit⟩ := List.append_of_mem hs
      refine ⟨⟨.program before hole after, frames⟩, ?_⟩
      rw [fill, Seat.put, ← hsplit]
  · rintro ⟨⟨seat, frames⟩, rfl⟩
    cases seat with
    | expr => exact (Frame.mem_preorder_iff e _).mpr ⟨frames, rfl⟩
    | statement hole => exact (Statement.mem_exprs_iff _ e).mpr ⟨hole, frames, rfl⟩
    | program before hole after =>
      refine List.mem_flatMap.mpr ⟨_, by simp, (Statement.mem_exprs_iff _ e).mpr ⟨hole, frames, rfl⟩⟩

/-- Every expression of a node stands in a context. The context keeps its own texts around the text of whatever is
put there, so an exchange shows in the text of the node just if it shows in the text of the expression. It never
shows in the token literal, unless the expression is the whole node. -/
theorem text_fill :
    (∀ (node : Node) (e : Expr), e ∈ node.exprs ↔ ∃ context : Context, context.fill e = node) ∧
    ∀ context : Context,
      (∃ p q : String, ∀ e : Expr, (context.fill e).text = p ++ e.text ++ q) ∧
      (∀ e e' : Expr, (context.fill e).text = (context.fill e').text ↔ e.text = e'.text) ∧
      (context ≠ top → ∀ e e' : Expr, (context.fill e).tokenLiteral = (context.fill e').tokenLiteral) :=
  ⟨mem_exprs_iff, fun context => ⟨exists_text_fill context, text_fill_inj context, tokenLiteral_fill context⟩⟩

def firstOperand : Context :=
  ⟨.program [] (.expression ⟨.minus, "-"⟩) [.ret ⟨.returnWord, "return"⟩ none],
    [.infixLeft ⟨.plus, "+"⟩ "+" (.integer ⟨.integer, "1"⟩ 1), .prefixOp ⟨.minus, "-"⟩ "-"]⟩

theorem text_fill_firstOperand :
    let sigil := Expr.identifier ⟨⟨.identifier, "$x"⟩, "$x"⟩
    let bare := Expr.identifier ⟨⟨.identifier, "x"⟩, "x"⟩
    firstOperand ≠ top ∧ (firstOperand.fill sigil).text = "((-$x) + 1)return ;" ∧
      (firstOperand.fill sigil).text ≠ (firstOperand.fill bare).text ∧
      (firstOperand.fill sigil).tokenLiteral = (firstOperand.fill bare).tokenLiteral := by
  intro sigil bare
  have hne : firstOperand ≠ top := by simp [firstOperand, top]
  obtain ⟨-, htext, hliteral⟩ := text_fill.2 firstOperand
  have hsigil : sigil.text ≠ bare.text := by decide
  exact ⟨hne, by decide +kernel, fun hsame => hsigil ((htext _ _).mp hsame), hliteral hne _ _⟩

end Context

end Mel
