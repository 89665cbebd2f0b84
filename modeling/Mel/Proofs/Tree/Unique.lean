import Mel.Proofs.Tree.Tokens

/-!
# Trees are determined by their tokens

The tokens of an operation are those of a row of pieces in parentheses, where an operand and a token between
operands start differently. So the tokens of a tree can be cut in one way only (`tokens_append_inj`), and from
the pieces the operation can be put together again.
-/

namespace Mel

/-- A row can be cut in one way only if each of its members can, and if no member starts what is behind it. -/
theorem flatMap_append_inj {α : Type} (tokens : α → List Token) (xs ys : List α) (r r' : List Token)
    (hinj : ∀ x ∈ xs, ∀ y ∈ ys, ∀ s s', tokens x ++ s = tokens y ++ s' → x = y ∧ s = s')
    (hr : ∀ y ∈ ys, ∀ s, tokens y ++ s ≠ r) (hr' : ∀ x ∈ xs, ∀ s, tokens x ++ s ≠ r')
    (h : xs.flatMap tokens ++ r = ys.flatMap tokens ++ r') : xs = ys ∧ r = r' := by
  induction xs generalizing ys with
  | nil =>
    cases ys with
    | nil => exact ⟨rfl, h⟩
    | cons y ys =>
      rw [List.flatMap_cons, List.append_assoc] at h
      exact absurd h.symm (hr y List.mem_cons_self _)
  | cons x xs ih =>
    cases ys with
    | nil =>
      rw [List.flatMap_cons, List.append_assoc] at h
      exact absurd h (hr' x List.mem_cons_self _)
    | cons y ys =>
      rw [List.flatMap_cons, List.flatMap_cons, List.append_assoc, List.append_assoc] at h
      obtain ⟨rfl, hrest⟩ := hinj x List.mem_cons_self y List.mem_cons_self _ _ h
      rw [List.forall_mem_cons] at hr hr'
      obtain ⟨rfl, rfl⟩ := ih ys
        (fun x hx y hy => hinj x (List.mem_cons_of_mem _ hx) y (List.mem_cons_of_mem _ hy)) hr.2 hr'.2 hrest
      exact ⟨rfl, rfl⟩

def TokenKind.openings : List TokenKind := .lParen :: operands

namespace Expr

/-! ## Values of leaves -/

def LeafValued : Expr → Prop
  | integer token value => ofNumeral token = .ok (integer token value)
  | string token value => value = Quoted.value token.literal
  | _ => True

def children : Expr → List Expr
  | identifier _ | integer _ _ | string _ _ => []
  | infixOp _ _ left right => [left, right]
  | prefixOp _ _ operand | postfixOp _ _ operand => [operand]
  | ternary _ _ condition consequence alternative => [condition, consequence, alternative]

theorem preorder_children (e : Expr) : e.preorder = e :: e.children.flatMap preorder := by
  cases e <;> simp [preorder, children]

theorem sizeOf_child (e x : Expr) (h : x ∈ e.children) : sizeOf x < sizeOf e := by
  cases e with
  | identifier | integer | string => simp [children] at h
  | infixOp | prefixOp | postfixOp | ternary =>
    simp only [children, List.mem_cons, List.not_mem_nil, or_false] at h
    grind [infixOp.sizeOf_spec, prefixOp.sizeOf_spec, postfixOp.sizeOf_spec, ternary.sizeOf_spec]

def Valued (e : Expr) : Prop := ∀ part ∈ e.preorder, part.LeafValued

structure WellFormed (e : Expr) : Prop where
  legible : e.Legible
  valued : e.Valued

def ofOperand (token : Token) : Option Expr :=
  match token.kind with
  | .identifier => some (identifier (.ofToken token))
  | .integer | .hexInteger => (ofNumeral token).toOption
  | .stringLiteral => some (ofQuoted token)
  | _ => none

/-! ## Operations in pieces -/

/-- What stands between the parentheses of an operation: operands, and tokens between them. -/
inductive Piece where
  | operand (e : Expr)
  | sign (token : Token)

namespace Piece

def tokens : Piece → List Token
  | operand e => e.tokens
  | sign token => [token]

/-- A token between operands starts no operand, nor is it the parenthesis that closes the row. -/
def Fits : Piece → Prop
  | operand e => e.WellFormed
  | sign token => token.kind ∉ TokenKind.rParen :: TokenKind.openings

end Piece

def pieces : Expr → List Piece
  | identifier _ | integer _ _ | string _ _ => []
  | infixOp token _ left right => .operand left :: (token.scanned.map .sign ++ [.operand right])
  | prefixOp token _ operand => token.scanned.map .sign ++ [.operand operand]
  | postfixOp token _ operand => .operand operand :: token.scanned.map .sign
  | ternary question colon condition consequence alternative =>
    .operand condition :: (question.scanned.map .sign ++
      .operand consequence :: (colon.scanned.map .sign ++ [.operand alternative]))

def ofPieces : List Piece → Option Expr
  | [.operand left, .sign token, .operand right] => some (ofInfix token left right)
  | [.sign token, .operand operand] => some (ofPrefix token operand)
  | [.operand operand, .sign token, .sign _] =>
    let kind : TokenKind := if token.kind = .plus then .increment else .decrement
    some (ofPostfix kind.token operand)
  | [.operand condition, .sign _, .operand consequence, .sign _, .operand alternative] =>
    some (ternary TokenKind.question.token TokenKind.colon.token condition consequence alternative)
  | _ => none

theorem flatMap_sign (tokens : List Token) : (tokens.map Piece.sign).flatMap Piece.tokens = tokens := by
  induction tokens with
  | nil => rfl
  | cons token tokens ih => rw [List.map_cons, List.flatMap_cons, ih]; rfl

theorem tokens_cases (e : Expr) (h : e.WellFormed) :
    (∃ token, token.Operand ∧ e.tokens = [token] ∧ ofOperand token = some e) ∨
      (e.tokens = parenthesized (e.pieces.flatMap Piece.tokens) ∧ ofPieces e.pieces = some e) := by
  obtain ⟨hlegible, hvalued⟩ := h
  have hleaf : e.LeafValued := hvalued e (by rw [preorder_children]; exact List.mem_cons_self)
  cases hlegible with
  | identifier htoken hkind => exact .inl ⟨_, htoken, rfl, by simp [ofOperand, hkind]⟩
  | integer htoken hkind =>
    refine .inl ⟨_, htoken, rfl, ?_⟩
    rw [LeafValued] at hleaf
    rcases hkind with hkind | hkind <;> simp [ofOperand, hkind, hleaf, Except.toOption]
  | string htoken hkind =>
    refine .inl ⟨_, htoken, rfl, ?_⟩
    rw [LeafValued] at hleaf
    simp [ofOperand, hkind, ofQuoted, hleaf]
  | infixOp hkind =>
    have hscanned := scanned_symbol _ (TokenKind.symbol_of_infixOp _ hkind)
    exact .inr ⟨by simp [pieces, tokens, hscanned, Piece.tokens], by simp [pieces, hscanned]; rfl⟩
  | prefixOp hkind =>
    have hscanned := scanned_symbol _ (TokenKind.symbol_of_prefixOp _ hkind)
    exact .inr ⟨by simp [pieces, tokens, hscanned, Piece.tokens], by simp [pieces, hscanned]; rfl⟩
  | postfixOp hkind =>
    refine .inr ⟨by simp [pieces, tokens, flatMap_sign, Piece.tokens], ?_⟩
    simp only [TokenKind.postfixes, List.mem_cons, List.not_mem_nil, or_false] at hkind
    rcases hkind with rfl | rfl <;> rfl
  | ternary => exact .inr ⟨by simp [pieces, tokens, flatMap_sign, Piece.tokens], rfl⟩

/-! ## The pieces of an operation -/

theorem operand_mem_pieces (e x : Expr) : .operand x ∈ e.pieces ↔ x ∈ e.children := by
  cases e <;> simp [pieces, children]

theorem legible_child (e x : Expr) (he : e.Legible) (h : x ∈ e.children) : x.Legible := by
  cases he with
  | identifier | integer | string => simp [children] at h
  | infixOp _ hleft hright =>
    simp only [children, List.mem_cons, List.not_mem_nil, or_false] at h
    rcases h with rfl | rfl
    · exact hleft
    · exact hright
  | prefixOp _ hoperand | postfixOp _ hoperand =>
    obtain rfl : x = _ := by simpa [children] using h
    exact hoperand
  | ternary hcondition hconsequence halternative =>
    simp only [children, List.mem_cons, List.not_mem_nil, or_false] at h
    rcases h with rfl | rfl | rfl
    · exact hcondition
    · exact hconsequence
    · exact halternative

theorem valued_child (e x : Expr) (he : e.Valued) (h : x ∈ e.children) : x.Valued := by
  intro part hpart
  apply he part
  rw [preorder_children]
  exact List.mem_cons_of_mem _ (List.mem_flatMap.mpr ⟨x, h, hpart⟩)

theorem kind_sign (e : Expr) (token : Token) (he : e.Legible) (h : .sign token ∈ e.pieces) :
    token.kind ∉ TokenKind.rParen :: TokenKind.openings := by
  have hscanned : ∀ kind ∈ TokenKind.infixes ++ TokenKind.prefixes ++ TokenKind.postfixes ++ [.question, .colon],
      ∀ token ∈ kind.token.scanned, token.kind ∉ TokenKind.rParen :: TokenKind.openings := by decide
  cases he with
  | identifier | integer | string => simp [pieces] at h
  | infixOp hkind | prefixOp hkind | postfixOp hkind =>
    refine hscanned _ ?_ token (by simpa [pieces] using h)
    simp [hkind]
  | ternary =>
    rcases (by simpa [pieces] using h : _ ∨ _) with h | h
    · exact hscanned .question (by simp) token h
    · exact hscanned .colon (by simp) token h

theorem fits_pieces (e : Expr) (h : e.WellFormed) (p : Piece) (hp : p ∈ e.pieces) : p.Fits := by
  cases p with
  | operand x =>
    rw [operand_mem_pieces] at hp
    exact ⟨legible_child e x h.legible hp, valued_child e x h.valued hp⟩
  | sign token => exact kind_sign e token h.legible hp

/-! ## Unique reading -/

/-- Where a row starts with the tokens of the expression, it starts with those of no other one. -/
def Unique (a : Expr) : Prop :=
  ∀ b r r', b.WellFormed → a.tokens ++ r = b.tokens ++ r' → a = b ∧ r = r'

theorem head_tokens (e : Expr) (h : e.WellFormed) :
    ∃ token rest, e.tokens = token :: rest ∧ token.kind ∈ TokenKind.openings := by
  rcases tokens_cases e h with ⟨token, htoken, he, -⟩ | ⟨he, -⟩
  · exact ⟨token, [], he, List.mem_cons_of_mem _ htoken.kind⟩
  · exact ⟨TokenKind.lParen.token, _, he, List.mem_cons_self⟩

theorem tokens_append_ne (e : Expr) (h : e.WellFormed) (token : Token) (s r : List Token)
    (hkind : token.kind ∉ TokenKind.openings) : e.tokens ++ s ≠ token :: r := by
  obtain ⟨first, rest, htokens, hfirst⟩ := head_tokens e h
  rw [htokens]
  intro heq
  rw [(List.cons.inj heq).1] at hfirst
  exact hkind hfirst

theorem piece_append_ne (p : Piece) (h : p.Fits) (s r : List Token) :
    p.tokens ++ s ≠ TokenKind.rParen.token :: r := by
  cases p with
  | operand e => exact tokens_append_ne e h _ s r (by decide)
  | sign token =>
    intro heq
    rw [Piece.Fits, (List.cons.inj heq).1] at h
    exact absurd h (by decide)

theorem piece_append_inj (p q : Piece) (r r' : List Token) (hp : p.Fits) (hq : q.Fits)
    (hunique : ∀ e, p = .operand e → e.Unique) (h : p.tokens ++ r = q.tokens ++ r') : p = q ∧ r = r' := by
  have hopens : ∀ token, Piece.Fits (.sign token) → token.kind ∉ TokenKind.openings :=
    fun token htoken hmem => htoken (List.mem_cons_of_mem _ hmem)
  cases p with
  | operand e =>
    cases q with
    | operand f =>
      obtain ⟨rfl, rfl⟩ := hunique e rfl f r r' hq h
      exact ⟨rfl, rfl⟩
    | sign token => exact absurd h (tokens_append_ne e hp token r r' (hopens token hq))
  | sign token =>
    cases q with
    | operand f => exact absurd h.symm (tokens_append_ne f hq token r' r (hopens token hp))
    | sign token' =>
      obtain ⟨rfl, rfl⟩ := List.cons.inj h
      exact ⟨rfl, rfl⟩

theorem pieces_append_inj (ps qs : List Piece) (r r' : List Token) (hps : ∀ p ∈ ps, p.Fits)
    (hqs : ∀ q ∈ qs, q.Fits) (hunique : ∀ e, .operand e ∈ ps → e.Unique)
    (h : ps.flatMap Piece.tokens ++ TokenKind.rParen.token :: r =
      qs.flatMap Piece.tokens ++ TokenKind.rParen.token :: r') : ps = qs ∧ r = r' := by
  obtain ⟨heq, hrest⟩ := flatMap_append_inj Piece.tokens ps qs _ _
    (fun p hp q hq s s' => piece_append_inj p q s s' (hps p hp) (hqs q hq) fun e he => hunique e (he ▸ hp))
    (fun q hq s => piece_append_ne q (hqs q hq) s r) (fun p hp s => piece_append_ne p (hps p hp) s r') h
  exact ⟨heq, (List.cons.inj hrest).2⟩

theorem lParen_not_operand (token : Token) (h : token.Operand) : token ≠ TokenKind.lParen.token := by
  rintro rfl
  exact absurd h.kind (by decide)

theorem tokens_append_inj (a : Expr) (ha : a.WellFormed) : a.Unique := by
  intro b r r' hb h
  rcases tokens_cases a ha with ⟨token, htoken, hta, hleaf⟩ | ⟨hta, hpieces⟩
  · rcases tokens_cases b hb with ⟨token', htoken', htb, hleaf'⟩ | ⟨htb, hpieces'⟩
    · rw [hta, htb] at h
      obtain ⟨rfl, rfl⟩ := List.cons.inj h
      rw [hleaf, Option.some.injEq] at hleaf'
      exact ⟨hleaf', rfl⟩
    · rw [hta, htb] at h
      exact absurd (List.cons.inj h).1 (lParen_not_operand token htoken)
  · rcases tokens_cases b hb with ⟨token', htoken', htb, hleaf'⟩ | ⟨htb, hpieces'⟩
    · rw [hta, htb] at h
      exact absurd (List.cons.inj h).1.symm (lParen_not_operand token' htoken')
    · rw [hta, htb, parenthesized, parenthesized, List.cons_append, List.cons_append, List.cons.injEq,
        List.append_assoc, List.append_assoc] at h
      obtain ⟨heq, rfl⟩ := pieces_append_inj _ _ r r' (fits_pieces a ha) (fits_pieces b hb)
        (fun e he => tokens_append_inj e (fits_pieces a ha _ he)) h.2
      rw [← heq, hpieces, Option.some.injEq] at hpieces'
      exact ⟨hpieces', rfl⟩
termination_by sizeOf a
decreasing_by exact sizeOf_child a e ((operand_mem_pieces a e).mp he)

end Expr

end Mel
