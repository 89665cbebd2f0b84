import Mel.Proofs.Tree.Unique
import Mel.Tree.Statement

/-!
# The tokens of a program

Nothing stands between the statements of a program, and nothing has to: a semicolon, a quote or a parenthesis
ends a statement, and each of them is a token in front of every text. So the text of a program holds the tokens
of its statements (`scan_statements`), and from them the program is read back as its expressions are
(`text_eq_text_iff`).
-/

namespace Mel

namespace Statement

def tokens : Statement → List Token
  | expression _ expr => expr.elim [] Expr.tokens
  | declaration token name value =>
    token :: name.token :: TokenKind.assign.token ::
      (value.elim [] Expr.tokens ++ [TokenKind.semicolon.token])
  | ret token value => token :: (value.elim [] Expr.tokens ++ [TokenKind.semicolon.token])

/-! ## The text of a statement is a chunk -/

theorem chunk_value (value : Option Expr) (h : ∀ e ∈ value, e.Legible) :
    Chunk AnyText ((value.elim "" Expr.text).toList ++ [';'])
      (value.elim [] Expr.tokens ++ [TokenKind.semicolon.token]) := by
  have hend := chunk_solid .semicolon (by decide) (by decide)
  cases value with
  | none => exact hend
  | some e => exact chunk_append_stop ';' _ [] _ _ rfl (Expr.chunk_text e (h e rfl)) hend

theorem chunk_declaration (name : Token) (value : Option Expr) (hname : name.Operand)
    (h : ∀ e ∈ value, e.Legible) :
    Chunk AnyText (declaration TokenKind.stringWord.token (.ofToken name) value).text.toList
      (declaration TokenKind.stringWord.token (.ofToken name) value).tokens := by
  have hassigned := chunk_spaced _ _ _ _ _ _ (chunk_operand name hname) (chunk_symbol .assign (by decide))
    (chunk_value value h)
  have hchunk := chunk_append_stop ' ' _ _ _ _ rfl (chunk_keyword .stringWord (by decide))
    (chunk_space _ _ hassigned)
  simpa [text, tokens, TokenKind.token, TokenKind.text, Identifier.ofToken] using hchunk

theorem chunk_ret (value : Option Expr) (h : ∀ e ∈ value, e.Legible) :
    Chunk AnyText (ret TokenKind.returnWord.token value).text.toList
      (ret TokenKind.returnWord.token value).tokens := by
  have hchunk := chunk_append_stop ' ' _ _ _ _ rfl (chunk_keyword .returnWord (by decide))
    (chunk_space _ _ (chunk_value value h))
  simpa [text, tokens, TokenKind.token, TokenKind.text] using hchunk

/-! ## Statements that can be read back -/

/-- A declaration or a return statement with its keyword, or an expression that needs nothing behind it. Every
expression can be read back. The token of an expression alone is not in the text, so nothing is said of it. -/
inductive Legible : Statement → Prop where
  | expression {token : Token} {expr : Option Expr} : (∀ e ∈ expr, e.Legible ∧ e.Delimited) →
      Legible (.expression token expr)
  | declaration {name : Token} {value : Option Expr} : name.Operand → name.kind = .identifier →
      (∀ e ∈ value, e.Legible) → Legible (.declaration TokenKind.stringWord.token (.ofToken name) value)
  | ret {value : Option Expr} : (∀ e ∈ value, e.Legible) → Legible (.ret TokenKind.returnWord.token value)

theorem chunk_text (s : Statement) (h : s.Legible) : Chunk AnyText s.text.toList s.tokens := by
  cases h with
  | @expression token expr h =>
    cases expr with
    | none => exact fun _ _ _ hreads => hreads
    | some e => exact Expr.chunk_delimited e (h e rfl).1 (h e rfl).2
  | declaration hname _ hvalue => exact chunk_declaration _ _ hname hvalue
  | ret hvalue => exact chunk_ret _ hvalue

/-! ## Well-formed statements -/

/-- A declaration or a return statement with its keyword. What is named is an identifier, and the value, if
there is one, can be read back. -/
inductive WellFormed : Statement → Prop where
  | declaration {name : Token} {value : Option Expr} : name.Operand → name.kind = .identifier →
      (∀ e ∈ value, e.WellFormed) → WellFormed (.declaration TokenKind.stringWord.token (.ofToken name) value)
  | ret {value : Option Expr} : (∀ e ∈ value, e.WellFormed) →
      WellFormed (.ret TokenKind.returnWord.token value)

theorem legible_of_wellFormed (s : Statement) (h : s.WellFormed) : s.Legible := by
  cases h with
  | declaration hname hkind hvalue => exact .declaration hname hkind fun e he => (hvalue e he).legible
  | ret hvalue => exact .ret fun e he => (hvalue e he).legible

theorem value_append_inj (v w : Option Expr) (r r' : List Token) (hv : ∀ e ∈ v, e.WellFormed)
    (hw : ∀ e ∈ w, e.WellFormed)
    (h : v.elim [] Expr.tokens ++ [TokenKind.semicolon.token] ++ r =
      w.elim [] Expr.tokens ++ [TokenKind.semicolon.token] ++ r') : v = w ∧ r = r' := by
  -- No expression starts with the semicolon, so a value cannot be taken for an absent one.
  have hend : ∀ e : Expr, e.WellFormed → ∀ s r, e.tokens ++ s ≠ TokenKind.semicolon.token :: r :=
    fun e he s r => Expr.tokens_append_ne e he _ s r (by decide)
  rw [List.append_assoc, List.append_assoc] at h
  cases v with
  | none =>
    cases w with
    | none => exact ⟨rfl, (List.cons.inj h).2⟩
    | some f => exact absurd h.symm (hend f (hw f rfl) _ _)
  | some e =>
    cases w with
    | none => exact absurd h (hend e (hv e rfl) _ _)
    | some f =>
      obtain ⟨rfl, hrest⟩ := Expr.tokens_append_inj e (hv e rfl) f _ _ (hw f rfl) h
      exact ⟨rfl, (List.cons.inj hrest).2⟩

theorem tokens_append_inj (s t : Statement) (r r' : List Token) (hs : s.WellFormed) (ht : t.WellFormed)
    (h : s.tokens ++ r = t.tokens ++ r') : s = t ∧ r = r' := by
  cases hs with
  | declaration _ _ hv =>
    cases ht with
    | declaration _ _ hw =>
      obtain ⟨hname, hvalue⟩ := List.cons.inj (List.cons.inj h).2
      obtain ⟨rfl, rfl⟩ := value_append_inj _ _ r r' hv hw (List.cons.inj hvalue).2
      cases hname
      exact ⟨rfl, rfl⟩
    | ret => exact absurd (List.cons.inj h).1 (by decide)
  | ret hv =>
    cases ht with
    | declaration => exact absurd (List.cons.inj h).1 (by decide)
    | ret hw =>
      obtain ⟨rfl, rfl⟩ := value_append_inj _ _ r r' hv hw (List.cons.inj h).2
      exact ⟨rfl, rfl⟩

end Statement

/-! ## Programs -/

namespace Program

def tokens (p : Program) : List Token := p.statements.flatMap Statement.tokens

def Legible (p : Program) : Prop := ∀ s ∈ p.statements, s.Legible

theorem toList_text (p : Program) : p.text.toList = p.statements.flatMap fun s => s.text.toList := by
  rw [text, String.toList_join, List.flatMap_map]

theorem reads_text (p : Program) (h : p.Legible) : Reads p.text.toList p.tokens := by
  rw [toList_text]
  exact reads_chunk _ _ (chunk_of_any _ _ (chunk_flatMap _ _ _ fun s hs => Statement.chunk_text s (h s hs)))

/-- Scanning the text of a program gives the tokens of its statements, those of one right behind those of
another. -/
theorem scan_statements (p : Program) (h : p.Legible) :
    scan p.text = p.statements.flatMap Statement.tokens ++ [Token.eof] :=
  (reads_iff p.text p.tokens).mp (reads_text p h)

theorem operand_sigil : Token.Operand ⟨.identifier, "$s"⟩ :=
  ⟨⟨rfl, "$s", by decide +kernel⟩, by decide, not_unclosed _ (by decide)⟩

def glued : Program :=
  ⟨[.expression Token.eof (some Expr.tightQuoted),
    .declaration TokenKind.stringWord.token (.ofToken ⟨.identifier, "$s"⟩) none,
    .expression Token.eof (some Expr.tightQuoted), .expression Token.eof none,
    .ret TokenKind.returnWord.token (some Expr.tightNumeral), .expression Token.eof (some Expr.tightTree),
    .ret TokenKind.returnWord.token none]⟩

theorem legible_glued : glued.Legible := by
  have hquoted : ∀ e ∈ some Expr.tightQuoted, e.Legible ∧ e.Delimited := by
    simpa using ⟨Expr.legible_tightQuoted, trivial⟩
  have htree : ∀ e ∈ some Expr.tightTree, e.Legible ∧ e.Delimited := by
    simpa using ⟨Expr.legible_tightTree, trivial⟩
  simp only [Legible, glued, List.forall_mem_cons]
  refine ⟨.expression hquoted, .declaration operand_sigil rfl (by simp), .expression hquoted,
    .expression (by simp), .ret ?_, .expression htree, .ret (by simp), by simp⟩
  simpa using Expr.legible_tightNumeral

theorem scan_statements_glued :
    glued.Legible ∧ scan "\")=\"string $s = ;\")=\"return 0x1e;((0x1e--) - (!\")=\"))return ;" =
      [⟨.stringLiteral, "\")=\""⟩, ⟨.stringWord, "string"⟩, ⟨.identifier, "$s"⟩, ⟨.assign, "="⟩,
        ⟨.semicolon, ";"⟩, ⟨.stringLiteral, "\")=\""⟩, ⟨.returnWord, "return"⟩, ⟨.hexInteger, "0x1e"⟩,
        ⟨.semicolon, ";"⟩, ⟨.lParen, "("⟩, ⟨.lParen, "("⟩, ⟨.hexInteger, "0x1e"⟩, ⟨.minus, "-"⟩, ⟨.minus, "-"⟩,
        ⟨.rParen, ")"⟩, ⟨.minus, "-"⟩, ⟨.lParen, "("⟩, ⟨.bang, "!"⟩, ⟨.stringLiteral, "\")=\""⟩,
        ⟨.rParen, ")"⟩, ⟨.rParen, ")"⟩, ⟨.returnWord, "return"⟩, ⟨.semicolon, ";"⟩, Token.eof] :=
  ⟨legible_glued, scan_statements glued legible_glued⟩

def WellFormed (p : Program) : Prop := ∀ s ∈ p.statements, s.WellFormed

theorem legible_of_wellFormed (p : Program) (h : p.WellFormed) : p.Legible :=
  fun s hs => s.legible_of_wellFormed (h s hs)

theorem tokens_inj (p q : Program) (hp : p.WellFormed) (hq : q.WellFormed) (h : p.tokens = q.tokens) :
    p = q := by
  have hne : ∀ s : Statement, s.WellFormed → ∀ r, s.tokens ++ r ≠ [] := by
    intro s hs r
    cases hs <;> simp [Statement.tokens]
  obtain ⟨heq, -⟩ := flatMap_append_inj Statement.tokens p.statements q.statements [] []
    (fun s hs t ht r r' => Statement.tokens_append_inj s t r r' (hp s hs) (hq t ht))
    (fun t ht => hne t (hq t ht)) (fun s hs => hne s (hp s hs)) (congrArg (· ++ []) h)
  rwa [Program.mk.injEq]

end Program

/-- Two trees have one text only if they are the same tree. Quoted texts may hold whatever an operation or the
end of a statement looks like. -/
theorem text_eq_text_iff :
    (∀ a b : Expr, a.WellFormed → b.WellFormed → (a.text = b.text ↔ a = b)) ∧
      ∀ p q : Program, p.WellFormed → q.WellFormed → (p.text = q.text ↔ p = q) := by
  constructor
  · intro a b ha hb
    refine ⟨fun h => ?_, congrArg Expr.text⟩
    have hreads := reads_chunk _ _ (Expr.chunk_text a ha.legible)
    rw [h] at hreads
    have htokens := reads_unique _ _ _ hreads (reads_chunk _ _ (Expr.chunk_text b hb.legible))
    exact (Expr.tokens_append_inj a ha b [] [] hb (congrArg (· ++ []) htokens)).1
  · intro p q hp hq
    refine ⟨fun h => ?_, congrArg Program.text⟩
    have hreads := Program.reads_text p (p.legible_of_wellFormed hp)
    rw [h] at hreads
    have htokens := reads_unique _ _ _ hreads (Program.reads_text q (q.legible_of_wellFormed hq))
    exact Program.tokens_inj p q hp hq htokens

namespace Expr

/-- Its operands and its last two signs are those of `tightTree`, but the second sign is a prefix. -/
def signedTree : Expr :=
  .infixOp TokenKind.minus.token "-" tightNumeral
    (.prefixOp TokenKind.minus.token "-" (.prefixOp TokenKind.bang.token "!" tightQuoted))

theorem leafValued_tight : tightNumeral.LeafValued ∧ tightQuoted.LeafValued :=
  ⟨show ofNumeral ⟨.hexInteger, "0x1e"⟩ = .ok tightNumeral by decide +kernel,
    show ")=" = Quoted.value "\")=\"" by decide +kernel⟩

theorem wellFormed_tightTree : tightTree.WellFormed := by
  refine ⟨legible_tightTree, ?_⟩
  simpa [Valued, tightTree, tightNumeral, tightQuoted, preorder, LeafValued] using leafValued_tight

theorem wellFormed_signedTree : signedTree.WellFormed := by
  refine ⟨.infixOp (by decide) legible_tightNumeral
    (.prefixOp (by decide) (.prefixOp (by decide) legible_tightQuoted)), ?_⟩
  simpa [Valued, signedTree, tightNumeral, tightQuoted, preorder, LeafValued] using leafValued_tight

end Expr

def Program.pair (declared returned : Option Expr) : Program :=
  ⟨[.declaration TokenKind.stringWord.token (.ofToken ⟨.identifier, "$s"⟩) declared,
    .ret TokenKind.returnWord.token returned]⟩

theorem Program.wellFormed_pair (declared returned : Option Expr) (hdeclared : ∀ e ∈ declared, e.WellFormed)
    (hreturned : ∀ e ∈ returned, e.WellFormed) : (pair declared returned).WellFormed := by
  intro s hs
  rcases (by simpa [pair] using hs : s = _ ∨ s = _) with rfl | rfl
  · exact .declaration operand_sigil rfl hdeclared
  · exact .ret hreturned

theorem text_eq_text_iff_tight :
    Expr.tightTree.WellFormed ∧ Expr.signedTree.WellFormed ∧
      (Expr.tightTree.text = Expr.signedTree.text ↔ Expr.tightTree = Expr.signedTree) ∧
      (Program.pair (some Expr.tightTree) none).WellFormed ∧
      (Program.pair none (some Expr.tightTree)).WellFormed ∧
      ((Program.pair (some Expr.tightTree) none).text = (Program.pair none (some Expr.tightTree)).text ↔
        Program.pair (some Expr.tightTree) none = Program.pair none (some Expr.tightTree)) := by
  have hvalue : ∀ e ∈ some Expr.tightTree, e.WellFormed := by simpa using Expr.wellFormed_tightTree
  have hfirst := Program.wellFormed_pair (some Expr.tightTree) none hvalue (by simp)
  have hsecond := Program.wellFormed_pair none (some Expr.tightTree) (by simp) hvalue
  exact ⟨Expr.wellFormed_tightTree, Expr.wellFormed_signedTree,
    text_eq_text_iff.1 _ _ Expr.wellFormed_tightTree Expr.wellFormed_signedTree, hfirst, hsecond,
    text_eq_text_iff.2 _ _ hfirst hsecond⟩

end Mel
