import Mel.Proofs.Scanner.Step
import Mel.Scanner.Pull

/-!
# A text as a row of tokens

`Reads` says which tokens a text holds: lexemes that stand where they are, with blanks around them. It
holds of one row only, and that is the row `scan` gives (`reads_iff`).
-/

namespace Mel

open Lexeme

/-- The text holds just these tokens. -/
inductive Reads : List Char → List Token → Prop where
  | blank {blanks : List Char} : Blank blanks → Reads blanks []
  | token {blanks after : List Char} {lexeme : Lexeme} {tokens : List Token} : Blank blanks →
      Stands lexeme after → Reads after tokens →
      Reads (blanks ++ (lexeme.chars ++ after)) (lexeme.token :: tokens)

theorem reads_nil : Reads [] [] := .blank blank_nil

theorem reads_blank_append (blanks text : List Char) (tokens : List Token) (hb : Blank blanks)
    (h : Reads text tokens) : Reads (blanks ++ text) tokens := by
  cases h with
  | blank h => exact .blank (blank_append _ _ hb h)
  | token h hstands hreads =>
    rw [← List.append_assoc]
    exact .token (blank_append _ _ hb h) hstands hreads

/-! ## The tokens that are read -/

def Token.lexeme (token : Token) : Lexeme := ⟨token.kind, token.literal.toList⟩

@[simp]
theorem toList_literal (lexeme : Lexeme) : lexeme.token.literal.toList = lexeme.chars := by
  simp [Lexeme.token]

theorem lexeme_token (lexeme : Lexeme) : lexeme.token.lexeme = lexeme := by
  simp [Token.lexeme, Lexeme.token]

theorem token_injective (l l' : Lexeme) (h : l.token = l'.token) : l = l' := by
  rw [← lexeme_token l, h, lexeme_token]

/-- A token that the grammar spells before some text. -/
def Token.Formed (token : Token) : Prop := ∃ after, Spelled token.kind token.literal.toList after

theorem formed_of_stands (lexeme : Lexeme) (after : List Char) (h : Stands lexeme after) :
    lexeme.token.Formed := by
  refine ⟨after, ?_⟩
  rw [toList_literal]
  exact h.1

theorem formed_of_reads (text : List Char) (tokens : List Token) (h : Reads text tokens) :
    ∀ token ∈ tokens, token.Formed := by
  induction h with
  | blank => simp
  | token _ hstands _ ih =>
    intro token hmem
    rcases List.mem_cons.mp hmem with rfl | hmem
    · exact formed_of_stands _ _ hstands
    · exact ih token hmem

theorem reads_token_append (token : Token) (after : List Char) (tokens : List Token)
    (hformed : token.Formed) (hno : ¬ Extends token.kind token.literal.toList after)
    (h : Reads after tokens) : Reads (token.literal.toList ++ after) (token :: tokens) := by
  obtain ⟨before, hspelled⟩ := hformed
  have hstands : Stands token.lexeme after := ⟨spelled_of_not_extends _ _ _ _ hspelled hno, hno⟩
  simpa [Token.lexeme, Lexeme.token] using Reads.token blank_nil hstands h

theorem stands_of_reads (text : List Char) (before after : List Token) (token : Token)
    (h : Reads text (before ++ token :: after)) :
    ∃ front rest, text = front ++ (token.literal.toList ++ rest) ∧ Stands token.lexeme rest ∧
      Reads rest after := by
  generalize hrow : before ++ token :: after = row at h
  induction h generalizing before with
  | blank => simp at hrow
  | @token blanks rest lexeme tokens _ hstands hreads ih =>
    cases before with
    | nil =>
      obtain ⟨rfl, rfl⟩ := List.cons.inj hrow
      exact ⟨blanks, rest, by simp, by rwa [lexeme_token], hreads⟩
    | cons first before =>
      obtain ⟨front, back, rfl, hback, hreads⟩ := ih before (List.cons.inj hrow).2
      exact ⟨blanks ++ (lexeme.chars ++ front), back, by simp, hback, hreads⟩

theorem isEof_of_formed (token : Token) (h : token.Formed) : token.isEof = false := by
  obtain ⟨after, h⟩ := h
  rw [Token.isEof, decide_eq_false_iff_not]
  exact spelled_kind_ne_eof _ _ _ h

/-! ## The row that is scanned -/

theorem exists_reads (text : List Char) : ∃ tokens, Reads text tokens := by
  induction hn : text.length using Nat.strong_induction_on generalizing text with
  | _ n ih =>
    rcases Scanner.ahead_cases text with hb | ⟨blanks, lexeme, after, rfl, hb, hstands⟩
    · exact ⟨[], .blank hb⟩
    · have hpos := List.length_pos_iff.mpr (spelled_ne_nil _ _ _ hstands.1)
      have hlt : after.length < n := by
        simp only [List.length_append] at hn
        omega
      obtain ⟨tokens, hreads⟩ := ih after.length hlt after rfl
      exact ⟨lexeme.token :: tokens, .token hb hstands hreads⟩

theorem drain_none (scanner after : Scanner) (h : scanner.next = (none, after)) :
    scanner.drain = ([], after) := by
  rw [Scanner.drain]
  split <;> simp_all

theorem drain_some (scanner after : Scanner) (token : Token) (h : scanner.next = (some token, after)) :
    scanner.drain = (token :: after.drain.1, after.drain.2) := by
  rw [Scanner.drain]
  split <;> simp_all

theorem drain_reads (scanner : Scanner) (tokens : List Token) (h : Reads scanner.rest tokens) :
    scanner.drain = (tokens, ⟨scanner.position + scanner.rest.length, []⟩) := by
  generalize hrest : scanner.rest = text at h
  induction h generalizing scanner with
  | blank hb =>
    subst hrest
    apply drain_none
    rw [Scanner.next, Scanner.nextToken_blank scanner hb]
    rfl
  | @token blanks after lexeme tokens hb hstands _ ih =>
    have hnext : scanner.next = (some lexeme.token,
        ⟨scanner.position + blanks.length + lexeme.chars.length, after⟩) := by
      rw [Scanner.next, Scanner.nextToken_stands scanner blanks after lexeme hrest hb hstands]
      simp [isEof_of_formed _ (formed_of_stands _ _ hstands)]
    rw [drain_some _ _ _ hnext, ih _ rfl]
    simp only [List.length_append, Prod.mk.injEq, Scanner.mk.injEq, and_true, true_and]
    omega

theorem reads_unique (text : List Char) (tokens tokens' : List Token) (h : Reads text tokens)
    (h' : Reads text tokens') : tokens = tokens' := by
  have hdrain := (drain_reads ⟨0, text⟩ tokens h).symm.trans (drain_reads ⟨0, text⟩ tokens' h')
  exact congrArg Prod.fst hdrain

theorem reads_scan (text : String) :
    ∃ tokens, Reads text.toList tokens ∧ scan text = tokens ++ [Token.eof] := by
  obtain ⟨tokens, h⟩ := exists_reads text.toList
  refine ⟨tokens, h, ?_⟩
  rw [scan, drain_reads (Scanner.ofText text) tokens h]

theorem reads_iff (text : String) (tokens : List Token) :
    Reads text.toList tokens ↔ scan text = tokens ++ [Token.eof] := by
  obtain ⟨row, hrow, hscan⟩ := reads_scan text
  rw [hscan, List.append_cancel_right_eq]
  constructor
  · exact fun h => reads_unique _ _ _ hrow h
  · rintro rfl
    exact hrow

/-! ## Tokens that were scanned -/

theorem eof_or_formed (code : String) (token : Token) (h : token ∈ scan code) :
    token = Token.eof ∨ token.Formed := by
  obtain ⟨tokens, hreads, hscan⟩ := reads_scan code
  rw [hscan, List.mem_append, List.mem_singleton] at h
  rcases h with hmem | heof
  · exact .inr (formed_of_reads _ _ hreads token hmem)
  · exact .inl heof

theorem reads_alone (token : Token) (h : token.Formed) : Reads token.literal.toList [token] := by
  have hreads := reads_token_append token [] [] h (not_extends_nil _ _) reads_nil
  rwa [List.append_nil] at hreads

theorem formed_ext (token token' : Token) (h : token.Formed) (h' : token'.Formed)
    (hliteral : token.literal = token'.literal) : token = token' := by
  have hreads := reads_alone token h
  rw [hliteral] at hreads
  exact (List.cons.inj (reads_unique _ _ _ hreads (reads_alone token' h'))).1

end Mel
