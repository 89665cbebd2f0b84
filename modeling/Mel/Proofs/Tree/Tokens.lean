import Mel.Proofs.Scan.Chunk
import Mel.Tree.Expr

/-!
# The tokens of a canonical text

The canonical text of a tree holds the tokens of the tree in their order, with parentheses around every
operation (`scan_text`). This needs leaves that are tokens of some text, and operators that are spelled as
their kinds are.
-/

namespace Mel

open Lexeme

/-! ## Operators -/

namespace TokenKind

def infixes : List TokenKind :=
  [assign, eq, notEq, lt, gt, doubleLt, doubleGt, plus, minus, slash, asterisk]

def prefixes : List TokenKind := [minus, bang]

def postfixes : List TokenKind := [increment, decrement]

theorem symbol_of_infixOp (kind : TokenKind) (h : kind ∈ infixes) : kind ∈ singles ++ pairs := by
  revert kind
  decide

theorem symbol_of_prefixOp (kind : TokenKind) (h : kind ∈ prefixes) : kind ∈ singles ++ pairs := by
  revert kind
  decide

end TokenKind

/-- What a text holds for an operator of a tree. A text has no token for the doubled signs nor for the two
marks of a ternary operation. -/
def Token.scanned (token : Token) : List Token :=
  match token.kind with
  | .increment => [TokenKind.plus.token, TokenKind.plus.token]
  | .decrement => [TokenKind.minus.token, TokenKind.minus.token]
  | .question | .colon => [⟨.illegal, token.literal⟩]
  | _ => [token]

theorem scanned_symbol (kind : TokenKind) (h : kind ∈ TokenKind.singles ++ TokenKind.pairs) :
    kind.token.scanned = [kind.token] := by
  revert kind
  decide

theorem chunk_infixOp (kind : TokenKind) (h : kind ∈ TokenKind.infixes) :
    Chunk Stopped kind.text.toList kind.token.scanned := by
  have hkind := TokenKind.symbol_of_infixOp kind h
  rw [scanned_symbol kind hkind]
  exact chunk_symbol kind hkind

theorem chunk_postfixOp (kind : TokenKind) (h : kind ∈ TokenKind.postfixes) :
    ∃ c, isStop c = true ∧ kind.text.toList = [c, c] ∧ Chunk Stopped [c, c] kind.token.scanned := by
  have hplus : Chunk Stopped ['+'] [TokenKind.plus.token] := chunk_symbol .plus (by decide)
  have hminus : Chunk Stopped ['-'] [TokenKind.minus.token] := chunk_symbol .minus (by decide)
  simp only [TokenKind.postfixes, List.mem_cons, List.not_mem_nil, or_false] at h
  rcases h with rfl | rfl
  · exact ⟨'+', rfl, rfl, chunk_append_stop '+' ['+'] [] _ _ rfl hplus hplus⟩
  · exact ⟨'-', rfl, rfl, chunk_append_stop '-' ['-'] [] _ _ rfl hminus hminus⟩

theorem chunk_misfit (c : Char) (h : Misfit c) : Chunk Stopped [c] [⟨.illegal, String.ofList [c]⟩] := by
  have hformed : Token.Formed ⟨.illegal, String.ofList [c]⟩ := ⟨[], by simpa using .illegal h⟩
  simpa using chunk_token _ hformed (not_unclosed _ (by simp))

theorem chunk_mark (kind : TokenKind) (h : kind = .question ∨ kind = .colon) :
    Chunk Stopped kind.text.toList kind.token.scanned := by
  rcases h with rfl | rfl
  · exact chunk_misfit '?' ⟨rfl, rfl, rfl, by decide, by decide, by decide⟩
  · exact chunk_misfit ':' ⟨rfl, rfl, rfl, by decide, by decide, by decide⟩

/-! ## Operands -/

def TokenKind.operands : List TokenKind := [.identifier, .integer, .hexInteger, .stringLiteral]

/-- A token of some text that is an operand, with its closing quote if it is a quoted text. -/
structure Token.Operand (token : Token) : Prop where
  producible : Producible token
  kind : token.kind ∈ TokenKind.operands
  closed : ¬ token.Unclosed

theorem chunk_operand (token : Token) (h : token.Operand) : Chunk Stopped token.literal.toList [token] :=
  chunk_token token (formed_of_producible token h.producible) h.closed

theorem head_spelled (kind : TokenKind) (chars after : List Char) (h : Spelled kind chars after)
    (hkind : kind ∈ TokenKind.operands) : ∃ c rest, chars = c :: rest ∧ c ≠ '=' := by
  have hother : ∀ k ∈ TokenKind.keywords ++ TokenKind.singles ++ TokenKind.pairs, k ∉ TokenKind.operands := by
    decide
  obtain ⟨c, rest, rfl⟩ := List.exists_cons_of_ne_nil (spelled_ne_nil kind chars after h)
  refine ⟨c, rest, rfl, ?_⟩
  rintro rfl
  generalize hchars : '=' :: rest = chars at h
  cases h with
  | sigil | hex | closed | unclosed | dangling => cases hchars
  | word hword =>
    subst hchars
    cases hword
  | integer _ hdigits =>
    subst hchars
    exact absurd (hdigits '=' List.mem_cons_self) (by decide)
  | keyword hk | pair hk | single hk => exact hother kind (by simp [hk]) hkind
  | float | illegal => exact absurd hkind (by decide)

namespace Expr

/-! ## Trees that can be read back -/

/-- Leaves are tokens of some text, and a name is the literal of its token. Every operator is spelled as its
kind is. Nothing is said of the values. -/
inductive Legible : Expr → Prop where
  | identifier {token : Token} : token.Operand → token.kind = .identifier →
      Legible (.identifier (.ofToken token))
  | integer {token : Token} {value : Int64} : token.Operand →
      token.kind = .integer ∨ token.kind = .hexInteger → Legible (.integer token value)
  | string {token : Token} {value : String} : token.Operand → token.kind = .stringLiteral →
      Legible (.string token value)
  | infixOp {kind : TokenKind} {left right : Expr} : kind ∈ TokenKind.infixes → Legible left →
      Legible right → Legible (.infixOp kind.token kind.text left right)
  | prefixOp {kind : TokenKind} {operand : Expr} : kind ∈ TokenKind.prefixes → Legible operand →
      Legible (.prefixOp kind.token kind.text operand)
  | postfixOp {kind : TokenKind} {operand : Expr} : kind ∈ TokenKind.postfixes → Legible operand →
      Legible (.postfixOp kind.token kind.text operand)
  | ternary {condition consequence alternative : Expr} : Legible condition → Legible consequence →
      Legible alternative →
      Legible (.ternary TokenKind.question.token TokenKind.colon.token condition consequence alternative)

def tokens : Expr → List Token
  | identifier id => [id.token]
  | integer token _ | string token _ => [token]
  | infixOp token _ left right => parenthesized (left.tokens ++ (token.scanned ++ right.tokens))
  | prefixOp token _ operand => parenthesized (token.scanned ++ operand.tokens)
  | postfixOp token _ operand => parenthesized (operand.tokens ++ token.scanned)
  | ternary question colon condition consequence alternative =>
    parenthesized (condition.tokens ++ (question.scanned ++
      (consequence.tokens ++ (colon.scanned ++ alternative.tokens))))

/-! ## The text of a tree is a chunk -/

theorem head_text (e : Expr) (h : e.Legible) : ∃ c rest, e.text.toList = c :: rest ∧ c ≠ '=' := by
  have hleaf : ∀ token : Token, token.Operand → ∃ c rest, token.literal.toList = c :: rest ∧ c ≠ '=' := by
    intro token htoken
    obtain ⟨after, hspelled⟩ := formed_of_producible token htoken.producible
    exact head_spelled _ _ _ hspelled htoken.kind
  cases h with
  | identifier htoken | integer htoken | string htoken => exact hleaf _ htoken
  | infixOp | prefixOp | postfixOp | ternary => exact ⟨'(', _, by simp [text]; rfl, by decide⟩

theorem chunk_prefixOp (kind : TokenKind) (h : kind ∈ TokenKind.prefixes) (operand : Expr)
    (hoperand : operand.Legible) (hchunk : Chunk Stopped operand.text.toList operand.tokens) :
    Chunk Stopped (kind.text.toList ++ operand.text.toList) (kind.token.scanned ++ operand.tokens) := by
  have hkind := TokenKind.symbol_of_prefixOp kind h
  rw [scanned_symbol kind hkind]
  refine chunk_append _ _ _ _ (chunk_formed kind.token (formed_symbol kind hkind)) hchunk fun after _ => ?_
  simp only [TokenKind.prefixes, List.mem_cons, List.not_mem_nil, or_false] at h
  rcases h with rfl | rfl
  · exact not_extends_solid _ _ _ hkind (by decide)
  · -- A bang is the one operator that stands right before its operand and could become a pair.
    obtain ⟨c, rest, htext, hc⟩ := head_text operand hoperand
    simp [TokenKind.token, Extends, htext, hc]

def Delimited : Expr → Prop
  | identifier _ | integer _ _ => False
  | string _ _ | infixOp _ _ _ _ | prefixOp _ _ _ | postfixOp _ _ _ | ternary _ _ _ _ _ => True

/-- Only a name or a number has to be stopped by what is behind it. -/
theorem chunk_delimited_or (e : Expr) (h : e.Legible) :
    Chunk (fun after => e.Delimited ∨ Stopped after) e.text.toList e.tokens := by
  have hstopped : ∀ x : Expr, Chunk (fun after => x.Delimited ∨ Stopped after) x.text.toList x.tokens →
      Chunk Stopped x.text.toList x.tokens := fun _ hx => chunk_mono _ _ hx fun _ => .inr
  induction h with
  | identifier htoken | integer htoken =>
    exact chunk_mono _ _ (chunk_operand _ htoken) fun _ hafter => hafter.resolve_left id
  | string htoken hkind =>
    exact chunk_of_any _ _ (chunk_closed _ (formed_of_producible _ htoken.producible) hkind htoken.closed)
  | @infixOp kind left right hkind _ _ ihl ihr =>
    have hinner := chunk_spaced _ _ _ _ _ _ (hstopped _ ihl) (chunk_infixOp kind hkind) (hstopped _ ihr)
    simpa [text, tokens] using chunk_of_any _ _ (chunk_parenthesized _ _ hinner)
  | @prefixOp kind operand hkind hoperand ih =>
    have hinner := chunk_prefixOp kind hkind operand hoperand (hstopped _ ih)
    simpa [text, tokens] using chunk_of_any _ _ (chunk_parenthesized _ _ hinner)
  | @postfixOp kind operand hkind _ ih =>
    obtain ⟨c, hc, htext, hoperator⟩ := chunk_postfixOp kind hkind
    have hinner := chunk_append_stop c _ _ _ _ hc (hstopped _ ih) hoperator
    simpa [text, tokens, htext] using chunk_of_any _ _ (chunk_parenthesized _ _ hinner)
  | ternary _ _ _ ihc ihq iha =>
    have hchoice := chunk_spaced _ _ _ _ _ _ (hstopped _ ihq) (chunk_mark .colon (.inr rfl)) (hstopped _ iha)
    have hinner := chunk_spaced _ _ _ _ _ _ (hstopped _ ihc) (chunk_mark .question (.inl rfl)) hchoice
    simpa [text, tokens, TokenKind.token] using chunk_of_any _ _ (chunk_parenthesized _ _ hinner)

theorem chunk_text (e : Expr) (h : e.Legible) : Chunk Stopped e.text.toList e.tokens :=
  chunk_mono _ _ (chunk_delimited_or e h) fun _ => .inr

theorem chunk_delimited (e : Expr) (h : e.Legible) (hend : e.Delimited) : Chunk AnyText e.text.toList e.tokens :=
  chunk_mono _ _ (chunk_delimited_or e h) fun _ _ => .inl hend

/-- Scanning the canonical text of a tree gives its tokens, whatever the depth of the tree. -/
theorem scan_text (e : Expr) (h : e.Legible) : scan e.text = e.tokens ++ [Token.eof] :=
  (reads_iff e.text e.tokens).mp (reads_chunk _ _ (chunk_text e h))

/-! A numeral that ends like an exponent before its sign, and a quoted text that holds a parenthesis and the
second half of a pair. -/

def tightNumeral : Expr := .integer ⟨.hexInteger, "0x1e"⟩ 30

def tightQuoted : Expr := .string ⟨.stringLiteral, "\")=\""⟩ ")="

theorem legible_tightNumeral : tightNumeral.Legible :=
  .integer ⟨⟨rfl, "0x1e", by decide +kernel⟩, by decide, not_unclosed _ (by decide)⟩ (.inr rfl)

theorem legible_tightQuoted : tightQuoted.Legible := by
  have hclosed : Quoted.Closed ['"', ')', '=', '"'] :=
    ⟨[')', '='], .plain (by decide) (by decide) (.plain (by decide) (by decide) .nil), rfl⟩
  exact .string ⟨⟨rfl, "\")=\"", by decide +kernel⟩, by decide, fun hopen => hopen.2 hclosed⟩ rfl

def tightTree : Expr :=
  .infixOp TokenKind.minus.token "-" (.postfixOp TokenKind.decrement.token "--" tightNumeral)
    (.prefixOp TokenKind.bang.token "!" tightQuoted)

theorem legible_tightTree : tightTree.Legible :=
  .infixOp (by decide) (.postfixOp (by decide) legible_tightNumeral)
    (.prefixOp (by decide) legible_tightQuoted)

theorem scan_text_tight :
    tightTree.Legible ∧ scan "((0x1e--) - (!\")=\"))" =
      [⟨.lParen, "("⟩, ⟨.lParen, "("⟩, ⟨.hexInteger, "0x1e"⟩, ⟨.minus, "-"⟩, ⟨.minus, "-"⟩, ⟨.rParen, ")"⟩,
        ⟨.minus, "-"⟩, ⟨.lParen, "("⟩, ⟨.bang, "!"⟩, ⟨.stringLiteral, "\")=\""⟩, ⟨.rParen, ")"⟩,
        ⟨.rParen, ")"⟩, Token.eof] :=
  ⟨legible_tightTree, scan_text tightTree legible_tightTree⟩

end Expr

end Mel
