import Mel.Proofs.Scan.Reads

/-!
# Tokens with blanks between them

A text is laid out as blanks, then a token, then blanks, and so on. Every text is laid out so by its own
tokens (`scan_partition`), and every row of tokens that is laid out with blanks in every gap is read back
(`scan_spread`).
-/

namespace Mel

open Lexeme

/-! ## Layouts -/

/-- Each token with the blanks behind it. -/
abbrev Pieces := List (Token × List Char)

def spreadChars (pieces : Pieces) : List Char :=
  pieces.flatMap fun piece => piece.1.literal.toList ++ piece.2

def spread (lead : List Char) (pieces : Pieces) : String := String.ofList (lead ++ spreadChars pieces)

/-- A quoted text that runs to the end of its text. -/
def Token.Unclosed (token : Token) : Prop :=
  token.kind = .stringLiteral ∧ ¬ Quoted.Closed token.literal.toList

/-- Only the last token may be an open quoted text, and then nothing is behind it. -/
structure Ended (pieces : Pieces) : Prop where
  inner : ∀ piece ∈ pieces.dropLast, ¬ piece.1.Unclosed
  last : ∀ piece ∈ pieces.getLast?, piece.1.Unclosed → piece.2 = []

theorem ended_nil : Ended [] := ⟨by simp, by simp⟩

theorem ended_cons (token : Token) (gap : List Char) (pieces : Pieces) (h : Ended pieces)
    (htoken : token.Unclosed → gap = [] ∧ pieces = []) : Ended ((token, gap) :: pieces) := by
  cases pieces with
  | nil => exact ⟨by simp, by simpa using fun hopen => (htoken hopen).1⟩
  | cons piece pieces =>
    refine ⟨?_, by simpa using h.last⟩
    intro p hp
    rw [List.dropLast_cons_cons, List.mem_cons] at hp
    rcases hp with rfl | hp
    · intro hopen
      cases (htoken hopen).2
    · exact h.inner p hp

/-! ## Every text has a layout -/

theorem unclosed_iff (lexeme : Lexeme) :
    lexeme.token.Unclosed ↔ lexeme.kind = .stringLiteral ∧ ¬ Quoted.Closed lexeme.chars := by
  simp [Token.Unclosed, Lexeme.token]

theorem after_eq_nil (lexeme : Lexeme) (after : List Char) (h : Stands lexeme after)
    (hopen : lexeme.token.Unclosed) : after = [] := by
  obtain ⟨hkind, hopen⟩ := (unclosed_iff lexeme).mp hopen
  rcases (spelled_string _ _ _ h.1 hkind).2 with hclosed | ⟨hnil, -⟩
  · exact absurd hclosed hopen
  · exact hnil

theorem exists_layout (text : List Char) (tokens : List Token) (h : Reads text tokens) :
    ∃ lead pieces, text = lead ++ spreadChars pieces ∧ tokens = pieces.map Prod.fst ∧ Blank lead ∧
      (∀ piece ∈ pieces, Blank piece.2) ∧ Ended pieces := by
  induction h with
  | @blank blanks hb => exact ⟨blanks, [], by simp [spreadChars], rfl, hb, by simp, ended_nil⟩
  | @token blanks after lexeme tokens hb hstands hreads ih =>
    obtain ⟨gap, pieces, htext, htokens, hgap, hpieces, hended⟩ := ih
    refine ⟨blanks, (lexeme.token, gap) :: pieces, ?_, by simp [htokens], hb, ?_, ?_⟩
    · simp [htext, spreadChars]
    · intro piece hpiece
      rcases List.mem_cons.mp hpiece with rfl | hpiece
      · exact hgap
      · exact hpieces piece hpiece
    · apply ended_cons _ _ _ hended
      intro hopen
      have hnil := after_eq_nil lexeme after hstands hopen
      rw [hnil] at htext hreads
      have hrow := reads_unique _ _ _ hreads reads_nil
      rw [hrow] at htokens
      exact ⟨(List.append_eq_nil_iff.mp htext.symm).1, List.map_eq_nil_iff.mp htokens.symm⟩

theorem length_le_spreadChars (pieces : Pieces) (h : ∀ piece ∈ pieces, piece.1.literal ≠ "") :
    pieces.length ≤ (spreadChars pieces).length := by
  induction pieces with
  | nil => simp
  | cons piece pieces ih =>
    have hpos : 0 < piece.1.literal.toList.length := by
      rw [List.length_pos_iff, ne_eq, String.toList_eq_nil_iff]
      exact h piece List.mem_cons_self
    have hrest := ih fun p hp => h p (List.mem_cons_of_mem _ hp)
    simp only [spreadChars, List.flatMap_cons, List.length_append, List.length_cons] at hrest ⊢
    omega

theorem filter_blank (blanks : List Char) (h : Blank blanks) : blanks.filter (!isBlank ·) = [] := by
  rw [List.filter_eq_nil_iff]
  intro c hc
  simp [h c hc]

theorem filter_spreadChars (pieces : Pieces) (h : ∀ piece ∈ pieces, Blank piece.2) :
    (spreadChars pieces).filter (!isBlank ·) =
      (pieces.flatMap (·.1.literal.toList)).filter (!isBlank ·) := by
  induction pieces with
  | nil => rfl
  | cons piece pieces ih =>
    have hrest := ih fun p hp => h p (List.mem_cons_of_mem _ hp)
    have hgap := filter_blank piece.2 (h piece List.mem_cons_self)
    simp only [spreadChars, List.flatMap_cons, List.filter_append, hgap, List.append_nil] at hrest ⊢
    rw [hrest]

/-- A text is the literals of its tokens, with only blanks before, between and behind them. So the characters
that are not blank are in the literals, each once and in their order. -/
theorem scan_partition (code : String) :
    ∃ lead pieces, scan code = pieces.map Prod.fst ++ [Token.eof] ∧ code = spread lead pieces ∧
      Blank lead ∧ (∀ piece ∈ pieces, Blank piece.2) ∧
      (∀ piece ∈ pieces, piece.1.kind ≠ .eof ∧ piece.1.literal ≠ "" ∧
        (piece.1.kind ≠ .stringLiteral → NoBlank piece.1.literal.toList)) ∧
      code.toList.filter (!isBlank ·) = (pieces.flatMap (·.1.literal.toList)).filter (!isBlank ·) ∧
      pieces.length ≤ code.length := by
  obtain ⟨tokens, hreads, hscan⟩ := reads_scan code
  obtain ⟨lead, pieces, htext, rfl, hlead, hgaps, -⟩ := exists_layout code.toList tokens hreads
  have hliteral : ∀ piece ∈ pieces, piece.1.kind ≠ .eof ∧ piece.1.literal ≠ "" ∧
      (piece.1.kind ≠ .stringLiteral → NoBlank piece.1.literal.toList) := by
    intro piece hpiece
    obtain ⟨after, h⟩ := formed_of_reads _ _ hreads piece.1 (List.mem_map_of_mem hpiece)
    refine ⟨spelled_kind_ne_eof _ _ _ h, ?_, noBlank_spelled _ _ _ h⟩
    intro hempty
    exact spelled_ne_nil _ _ _ h (by simp [hempty])
  refine ⟨lead, pieces, hscan, ?_, hlead, hgaps, hliteral, ?_, ?_⟩
  · rw [spread, ← htext, String.ofList_toList]
  · rw [htext, List.filter_append, filter_blank lead hlead, List.nil_append, filter_spreadChars _ hgaps]
  · have hle := length_le_spreadChars pieces fun piece hpiece => (hliteral piece hpiece).2.1
    rw [← String.length_toList, htext, List.length_append]
    omega

/-! ## Reading a layout back -/

def Producible (token : Token) : Prop := token.isEof = false ∧ ∃ code, token ∈ scan code

theorem formed_of_producible (token : Token) (h : Producible token) : token.Formed := by
  obtain ⟨heof, code, hmem⟩ := h
  rcases eof_or_formed code token hmem with rfl | hformed
  · cases heof
  · exact hformed

theorem producible_of_reads (code : String) (tokens : List Token) (h : Reads code.toList tokens)
    (token : Token) (hmem : token ∈ tokens) : Producible token := by
  refine ⟨isEof_of_formed _ (formed_of_reads _ _ h token hmem), code, ?_⟩
  rw [(reads_iff code tokens).mp h]
  exact List.mem_append_left _ hmem

structure Spaced (pieces : Pieces) : Prop where
  blank : ∀ piece ∈ pieces, Blank piece.2
  between : ∀ piece ∈ pieces.dropLast, piece.2 ≠ []

theorem spaced_tail (piece : Token × List Char) (pieces : Pieces) (h : Spaced (piece :: pieces)) :
    Spaced pieces := by
  refine ⟨fun p hp => h.blank p (List.mem_cons_of_mem _ hp), ?_⟩
  cases pieces with
  | nil => simp
  | cons next pieces => exact fun p hp => h.between p (by simp [hp])

theorem ended_tail (piece : Token × List Char) (pieces : Pieces) (h : Ended (piece :: pieces)) :
    Ended pieces := by
  cases pieces with
  | nil => exact ended_nil
  | cons next pieces =>
    exact ⟨fun p hp => h.inner p (by simp [hp]), by simpa using h.last⟩

theorem closed_of_gap (token : Token) (gap : List Char) (pieces : Pieces)
    (h : Ended ((token, gap) :: pieces)) (hgap : gap ≠ []) (hkind : token.kind = .stringLiteral) :
    Quoted.Closed token.literal.toList := by
  by_contra hopen
  cases pieces with
  | nil => exact hgap (h.last (token, gap) (by simp) ⟨hkind, hopen⟩)
  | cons next pieces => exact h.inner (token, gap) (by simp) ⟨hkind, hopen⟩

theorem reads_spread (pieces : Pieces) (hformed : ∀ piece ∈ pieces, piece.1.Formed)
    (hspaced : Spaced pieces) (hended : Ended pieces) :
    Reads (spreadChars pieces) (pieces.map Prod.fst) := by
  induction pieces with
  | nil => exact reads_nil
  | cons piece pieces ih =>
    obtain ⟨token, gap⟩ := piece
    have hrest := ih (fun p hp => hformed p (List.mem_cons_of_mem _ hp)) (spaced_tail _ _ hspaced)
      (ended_tail _ _ hended)
    have hblank := hspaced.blank (token, gap) List.mem_cons_self
    have hno : ¬ Extends token.kind token.literal.toList (gap ++ spreadChars pieces) := by
      by_cases hgap : gap = []
      · -- Only the last gap may be empty.
        obtain rfl : pieces = [] := by
          cases pieces with
          | nil => rfl
          | cons next pieces => exact absurd hgap (hspaced.between (token, gap) (by simp))
        rw [hgap]
        exact not_extends_nil _ _
      · apply not_extends_blank _ _ _ (closed_of_gap token gap pieces hended hgap)
        obtain ⟨c, rest, rfl⟩ := List.exists_cons_of_ne_nil hgap
        exact (startsWith_cons _ _ _).mpr (hblank c List.mem_cons_self)
    have hreads := reads_token_append token _ _ (hformed (token, gap) List.mem_cons_self) hno
      (reads_blank_append _ _ _ hblank hrest)
    simpa [spreadChars] using hreads

theorem scan_of_reads (lead : List Char) (pieces : Pieces) (hlead : Blank lead)
    (h : Reads (spreadChars pieces) (pieces.map Prod.fst)) :
    scan (spread lead pieces) = pieces.map Prod.fst ++ [Token.eof] := by
  rw [← reads_iff, spread, String.toList_ofList]
  exact reads_blank_append _ _ _ hlead h

theorem ended_of_same (pieces pieces' : Pieces) (h : Ended pieces)
    (htokens : pieces'.map Prod.fst = pieces.map Prod.fst) (hlast : pieces'.getLast? = pieces.getLast?) :
    Ended pieces' := by
  refine ⟨?_, by simpa [hlast] using h.last⟩
  intro piece hpiece
  have hmem := List.mem_map_of_mem hpiece (f := Prod.fst)
  rw [List.map_dropLast, htokens, ← List.map_dropLast] at hmem
  obtain ⟨same, hsame, heq⟩ := List.mem_map.mp hmem
  rw [← heq]
  exact h.inner same hsame

/-- Tokens from any texts, laid out with blanks in every gap, are read back as they are. So is each of them
alone, and a text keeps its tokens if other blanks, but some, are put between them. -/
theorem scan_spread :
    (∀ lead pieces, Blank lead → (∀ piece ∈ pieces, Producible piece.1) → Spaced pieces → Ended pieces →
      scan (spread lead pieces) = pieces.map Prod.fst ++ [Token.eof]) ∧
    (∀ token, Producible token → scan token.literal = [token, Token.eof]) ∧
    (∀ code, ∃ lead pieces, code = spread lead pieces ∧ Blank lead ∧ (∀ piece ∈ pieces, Blank piece.2) ∧
      scan code = pieces.map Prod.fst ++ [Token.eof] ∧
      ∀ pieces', pieces'.map Prod.fst = pieces.map Prod.fst → pieces'.getLast? = pieces.getLast? →
        Spaced pieces' → scan (spread lead pieces') = scan code) := by
  have hspread : ∀ lead pieces, Blank lead → (∀ piece ∈ pieces, Producible piece.1) → Spaced pieces →
      Ended pieces → scan (spread lead pieces) = pieces.map Prod.fst ++ [Token.eof] := by
    intro lead pieces hlead hproducible hspaced hended
    have hformed : ∀ piece ∈ pieces, piece.1.Formed :=
      fun piece hpiece => formed_of_producible _ (hproducible piece hpiece)
    exact scan_of_reads lead pieces hlead (reads_spread pieces hformed hspaced hended)
  refine ⟨hspread, ?_, ?_⟩
  · intro token htoken
    have hscan := hspread [] [(token, [])] blank_nil (by simpa using htoken) ⟨by simp [Blank], by simp⟩
      ⟨by simp, by simp⟩
    simpa [spread, spreadChars] using hscan
  · intro code
    obtain ⟨tokens, hreads, hscan⟩ := reads_scan code
    obtain ⟨lead, pieces, htext, rfl, hlead, hgaps, hended⟩ := exists_layout code.toList tokens hreads
    refine ⟨lead, pieces, by rw [spread, ← htext, String.ofList_toList], hlead, hgaps, hscan, ?_⟩
    intro pieces' htokens hlast hspaced
    have hproducible : ∀ piece ∈ pieces', Producible piece.1 := by
      intro piece hpiece
      apply producible_of_reads code _ hreads
      rw [← htokens]
      exact List.mem_map_of_mem hpiece
    rw [hscan, ← htokens]
    exact hspread lead pieces' hlead hproducible hspaced (ended_of_same _ _ hended htokens hlast)

def truncated : Pieces :=
  [(⟨.float, "1e+"⟩, ['\n']), (⟨.illegal, "."⟩, [' ']), (⟨.stringLiteral, "\"a b\\"⟩, [])]

theorem scan_spread_truncated :
    Blank ['\t'] ∧ (∀ piece ∈ truncated, Producible piece.1) ∧ Spaced truncated ∧ Ended truncated ∧
      scan "\t1e+\n. \"a b\\" = truncated.map Prod.fst ++ [Token.eof] := by
  have hblank : Blank ['\t'] := by simp [Blank, isBlank]
  have hproducible : ∀ piece ∈ truncated, Producible piece.1 := by
    have heof : ∀ piece ∈ truncated, piece.1.isEof = false := by decide
    have hmem : ∀ piece ∈ truncated, piece.1 ∈ scan "1e+.x \"a b\\" := by decide +kernel
    exact fun piece hpiece => ⟨heof piece hpiece, _, hmem piece hpiece⟩
  have hspaced : Spaced truncated := ⟨by simp [truncated, Blank, isBlank], by decide⟩
  have hended : Ended truncated := by
    have hkind : ∀ piece ∈ truncated.dropLast, piece.1.kind ≠ .stringLiteral := by decide
    exact ⟨fun piece hpiece hopen => hkind piece hpiece hopen.1, by simp [truncated]⟩
  have htext : spread ['\t'] truncated = "\t1e+\n. \"a b\\" := by decide
  have hscan := scan_spread.1 ['\t'] truncated hblank hproducible hspaced hended
  rw [htext] at hscan
  exact ⟨hblank, hproducible, hspaced, hended, hscan⟩

end Mel
