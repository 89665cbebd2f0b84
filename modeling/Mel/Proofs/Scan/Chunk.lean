import Mel.Proofs.Scan.Layout

/-!
# Texts made of chunks

A chunk is a piece of text that is read as the same tokens whatever text of some sort stands behind it. Two
chunks may be put together where the second one stops the first, and a chunk in parentheses may stand in front
of any text.
-/

namespace Mel

open Lexeme

/-! ## Tokens of one spelling -/

def TokenKind.token (kind : TokenKind) : Token := ⟨kind, kind.text⟩

theorem formed_symbol (kind : TokenKind) (h : kind ∈ TokenKind.singles ++ TokenKind.pairs) :
    kind.token.Formed := by
  rcases List.mem_append.mp h with h | h
  · exact ⟨[], .single h⟩
  · exact ⟨[], .pair h⟩

theorem formed_keyword (kind : TokenKind) (h : kind ∈ TokenKind.keywords) : kind.token.Formed :=
  ⟨[], .keyword h⟩

theorem not_unclosed (token : Token) (h : token.kind ≠ .stringLiteral) : ¬ token.Unclosed :=
  fun hopen => h hopen.1

/-! ## Chunks -/

/-- The characters are read as the tokens in front of every text that is `ok`. -/
def Chunk (ok : List Char → Prop) (chars : List Char) (tokens : List Token) : Prop :=
  ∀ after more, ok after → Reads after more → Reads (chars ++ after) (tokens ++ more)

def AnyText (_ : List Char) : Prop := True

variable {ok ok' : List Char → Prop}

theorem chunk_mono (chars : List Char) (tokens : List Token) (h : Chunk ok chars tokens)
    (hok : ∀ after, ok' after → ok after) : Chunk ok' chars tokens :=
  fun after more hafter hreads => h after more (hok after hafter) hreads

theorem chunk_of_any (chars : List Char) (tokens : List Token) (h : Chunk AnyText chars tokens) :
    Chunk ok chars tokens := chunk_mono _ _ h fun _ _ => trivial

theorem reads_chunk (chars : List Char) (tokens : List Token) (h : Chunk Stopped chars tokens) :
    Reads chars tokens := by
  simpa using h [] [] stopped_nil reads_nil

theorem chunk_formed (token : Token) (h : token.Formed) :
    Chunk (fun after => ¬ Extends token.kind token.literal.toList after) token.literal.toList [token] :=
  fun after more hafter hreads => reads_token_append token after more h hafter hreads

theorem chunk_token (token : Token) (hformed : token.Formed) (hclosed : ¬ token.Unclosed) :
    Chunk Stopped token.literal.toList [token] := by
  refine chunk_mono _ _ (chunk_formed token hformed) fun after hstop => ?_
  refine not_extends_stopped _ _ _ (fun hkind => ?_) hstop
  by_contra hopen
  exact hclosed ⟨hkind, hopen⟩

theorem chunk_closed (token : Token) (hformed : token.Formed) (hkind : token.kind = .stringLiteral)
    (hclosed : ¬ token.Unclosed) : Chunk AnyText token.literal.toList [token] := by
  refine chunk_mono _ _ (chunk_formed token hformed) fun after _ => ?_
  rw [hkind]
  rintro ⟨hopen, -⟩
  exact hclosed ⟨hkind, hopen⟩

theorem chunk_symbol (kind : TokenKind) (h : kind ∈ TokenKind.singles ++ TokenKind.pairs) :
    Chunk Stopped kind.text.toList [kind.token] := by
  have hkind : kind ≠ .stringLiteral := by
    rintro rfl
    exact absurd h (by decide)
  exact chunk_token kind.token (formed_symbol kind h) (not_unclosed _ hkind)

theorem chunk_keyword (kind : TokenKind) (h : kind ∈ TokenKind.keywords) :
    Chunk Stopped kind.text.toList [kind.token] := by
  have hkind : kind ≠ .stringLiteral := by
    rintro rfl
    exact absurd h (by decide)
  exact chunk_token kind.token (formed_keyword kind h) (not_unclosed _ hkind)

theorem chunk_solid (kind : TokenKind) (h : kind ∈ TokenKind.singles ++ TokenKind.pairs)
    (hkind : kind ∉ [.assign, .bang, .lt, .gt]) : Chunk AnyText kind.text.toList [kind.token] :=
  chunk_mono _ _ (chunk_formed kind.token (formed_symbol kind h)) fun _ _ => not_extends_solid _ _ _ h hkind

/-! ## Chunks put together -/

theorem chunk_space (chars : List Char) (tokens : List Token) (h : Chunk ok chars tokens) :
    Chunk ok (' ' :: chars) tokens := by
  intro after more hafter hreads
  exact reads_blank_append [' '] _ _ (by simp [Blank, isBlank]) (h after more hafter hreads)

theorem chunk_append (front back : List Char) (tokens moreTokens : List Token) (h : Chunk ok front tokens)
    (hback : Chunk ok' back moreTokens) (hok : ∀ after, ok' after → ok (back ++ after)) :
    Chunk ok' (front ++ back) (tokens ++ moreTokens) := by
  intro after more hafter hreads
  rw [List.append_assoc, List.append_assoc]
  exact h _ _ (hok after hafter) (hback after more hafter hreads)

theorem chunk_append_stop (c : Char) (front back : List Char) (tokens moreTokens : List Token)
    (hc : isStop c = true) (h : Chunk Stopped front tokens) (hback : Chunk ok (c :: back) moreTokens) :
    Chunk ok (front ++ c :: back) (tokens ++ moreTokens) :=
  chunk_append _ _ _ _ h hback fun _ _ => stopped_cons c _ hc

theorem chunk_spaced (left operator right : List Char) (leftTokens operatorTokens rightTokens : List Token)
    (hleft : Chunk Stopped left leftTokens) (hoperator : Chunk Stopped operator operatorTokens)
    (hright : Chunk ok right rightTokens) :
    Chunk ok (left ++ ' ' :: (operator ++ ' ' :: right)) (leftTokens ++ (operatorTokens ++ rightTokens)) := by
  have htail := chunk_append_stop ' ' operator right _ _ rfl hoperator (chunk_space _ _ hright)
  exact chunk_append_stop ' ' left _ _ _ rfl hleft (chunk_space _ _ htail)

theorem chunk_flatMap {α : Type} (xs : List α) (chars : α → List Char) (tokens : α → List Token)
    (h : ∀ x ∈ xs, Chunk AnyText (chars x) (tokens x)) : Chunk AnyText (xs.flatMap chars) (xs.flatMap tokens) := by
  induction xs with
  | nil => exact fun _ _ _ hreads => hreads
  | cons x xs ih =>
    rw [List.forall_mem_cons] at h
    exact chunk_append _ _ _ _ h.1 (ih h.2) fun _ _ => trivial

def parenthesized (tokens : List Token) : List Token :=
  TokenKind.lParen.token :: (tokens ++ [TokenKind.rParen.token])

theorem chunk_parenthesized (chars : List Char) (tokens : List Token) (h : Chunk Stopped chars tokens) :
    Chunk AnyText ('(' :: (chars ++ [')'])) (parenthesized tokens) := by
  have hclose := chunk_solid .rParen (by decide) (by decide)
  have hinner := chunk_append_stop ')' chars [] _ _ rfl h hclose
  exact chunk_append ['('] _ _ _ (chunk_solid .lParen (by decide) (by decide)) hinner fun _ _ => trivial

end Mel
