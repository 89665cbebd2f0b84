import Mel.Proofs.Scan.Chunk
import Mel.Proofs.Scan.Cut

/-!
# Kinds and what their tokens look like

The kind of a token and its literal go together (`scan_kinds`): a keyword is what the table of keywords spells, an
operator or a mark is the text of its kind, and a name is any other word. Each of these texts is read back as its
own token wherever blanks keep it apart.
-/

namespace Mel

open Lexeme

namespace TokenKind

/-! ## Tables of kinds -/

/-- Kinds with many literals. Their text is only what they are called. -/
def varied : List TokenKind := [illegal, identifier, integer, hexInteger, float, stringLiteral]

/-- Kinds that no token before the end has. -/
def unscanned : List TokenKind := [eof, increment, decrement, question, colon]

theorem mem_words_iff (word : String) :
    word ∈ keywordTable.map Prod.fst ↔ ∃ k ∈ keywords, k.text = word := by
  simp [keywordTable_eq]

theorem mem_spelled_iff (k : TokenKind) :
    k ∈ keywords ++ singles ++ pairs ↔ k ∉ unscanned ∧ k ∉ varied := by
  cases k <;> decide

end TokenKind

open TokenKind

/-! ## From a token to its kind -/

theorem spelled_varied_or (kind : TokenKind) (chars after : List Char) (h : Spelled kind chars after) :
    kind ∈ varied ∨ (kind ∈ keywords ++ singles ++ pairs ∧ chars = kind.text.toList) := by
  cases h with
  | keyword hk => exact .inr ⟨by simp [hk], rfl⟩
  | pair hk => exact .inr ⟨by simp [hk], rfl⟩
  | single hk => exact .inr ⟨by simp [hk], rfl⟩
  | _ => exact .inl (by decide)

theorem kind_not_unscanned (token : Token) (h : token.Formed) : token.kind ∉ unscanned := by
  obtain ⟨after, h⟩ := h
  have hvaried : ∀ k ∈ varied, k ∉ unscanned := by decide
  rcases spelled_varied_or _ _ _ h with hk | ⟨hk, -⟩
  · exact hvaried _ hk
  · exact ((mem_spelled_iff _).mp hk).1

theorem literal_eq_text (token : Token) (h : token.Formed) (hkind : token.kind ∉ varied) :
    token.literal = token.kind.text := by
  obtain ⟨after, h⟩ := h
  rcases spelled_varied_or _ _ _ h with hk | ⟨-, hchars⟩
  · exact absurd hk hkind
  · exact String.toList_injective hchars

theorem eq_keyword (token : Token) (h : token.Formed) (k : TokenKind) (hk : k ∈ keywords)
    (hliteral : k.text = token.literal) : token = k.token :=
  formed_ext token k.token h (formed_keyword k hk) hliteral.symm

theorem isKeyword_iff_mem_words (token : Token) (h : token.Formed) :
    token.kind.isKeyword = true ↔ token.literal ∈ keywordTable.map Prod.fst := by
  have hkeyword : ∀ k, k.isKeyword = true ↔ k ∈ keywords := fun k => by simp [isKeyword]
  rw [hkeyword, mem_words_iff]
  constructor
  · intro hk
    have hvaried : ∀ k ∈ keywords, k ∉ varied := by decide
    exact ⟨token.kind, hk, (literal_eq_text token h (hvaried _ hk)).symm⟩
  · rintro ⟨k, hk, hliteral⟩
    rwa [eq_keyword token h k hk hliteral]

theorem ofWord_literal (token : Token) (h : token.Formed)
    (hword : token.literal ∈ keywordTable.map Prod.fst) : ofWord token.literal = token.kind := by
  obtain ⟨k, hk, hliteral⟩ := (mem_words_iff _).mp hword
  rw [eq_keyword token h k hk hliteral]
  exact ofWord_text k hk

/-! ## Names -/

theorem first?_literal (token : Token) (h : token.Formed) :
    first? token.literal.toList = some token.lexeme := by
  obtain ⟨before, h⟩ := h
  have hno := not_extends_nil token.kind token.literal.toList
  have hfirst := first?_of_stands token.lexeme [] ⟨spelled_of_not_extends _ _ _ _ h hno, hno⟩
  rwa [List.append_nil] at hfirst

def Named (literal : String) : Prop :=
  literal.toList.head? = some '$' ∨
    (startsWith isLetter literal.toList ∧ literal ∉ keywordTable.map Prod.fst)

theorem named_of_identifier (token : Token) (h : token.Formed) (hkind : token.kind = .identifier) :
    Named token.literal := by
  have hnot : token.literal ∉ keywordTable.map Prod.fst := by
    rw [← isKeyword_iff_mem_words token h, hkind]
    decide
  obtain ⟨after, h⟩ := h
  generalize htext : token.literal.toList = chars at h
  generalize token.kind = kind at h hkind
  cases h with
  | sigil => exact .inl (by rw [htext]; rfl)
  | word hword =>
    obtain ⟨c, rest, rfl, hl, -⟩ := (isWord_iff _).mp hword
    exact .inr ⟨by rwa [htext, startsWith_cons], hnot⟩
  | keyword hk | pair hk | single hk =>
    subst hkind
    exact absurd hk (by decide)
  | _ => cases hkind

theorem identifier_of_named (token : Token) (h : token.Formed) (hnamed : Named token.literal) :
    token.kind = .identifier := by
  have hfirst := first?_literal token h
  rcases hnamed with hdollar | ⟨hletter, hnot⟩
  · obtain ⟨rest, hrest⟩ := List.head?_eq_some_iff.mp hdollar
    rw [hrest, first?, ofCons_dollar, Option.some.injEq] at hfirst
    exact (congrArg Lexeme.kind hfirst).symm
  · cases hchars : token.literal.toList with
    | nil =>
      rw [hchars] at hletter
      exact absurd hletter (not_startsWith_nil _)
    | cons c rest =>
      rw [hchars, startsWith_cons] at hletter
      rw [hchars, first?, ofCons_letter c rest hletter, Option.some.injEq] at hfirst
      have hword : String.ofList (c :: rest.takeWhile isWordChar) = token.literal := by
        have hlexeme : c :: rest.takeWhile isWordChar = token.literal.toList := congrArg Lexeme.chars hfirst
        rw [hlexeme, String.ofList_toList]
      have hkind : ofWord (String.ofList (c :: rest.takeWhile isWordChar)) = token.kind :=
        congrArg Lexeme.kind hfirst
      rw [← hkind, hword]
      apply ofWord_of_not_keyword
      intro k hk hliteral
      exact hnot ((mem_words_iff _).mpr ⟨k, hk, hliteral⟩)

/-! ## From a kind to its token -/

theorem chunk_spelled (kind : TokenKind) (h : kind ∈ keywords ++ singles ++ pairs) :
    Chunk Stopped kind.text.toList [kind.token] := by
  rw [List.append_assoc, List.mem_append] at h
  rcases h with hk | hk
  · exact chunk_keyword kind hk
  · exact chunk_symbol kind hk

theorem reads_append_blank (text more : List Char) (tokens moreTokens : List Token) (h : Reads text tokens)
    (hmore : Reads more moreTokens) (hblank : ∀ c ∈ text.getLast?, isBlank c = true)
    (hopen : ∀ token ∈ tokens.getLast?, ¬ token.Unclosed) : Reads (text ++ more) (tokens ++ moreTokens) := by
  have hend : ∀ chars, chars ≠ [] → chars <:+ text → ¬ NoBlank chars := by
    rintro chars hne ⟨front, rfl⟩ hno
    rw [List.getLast?_append_of_ne_nil _ hne, List.getLast?_eq_some_getLast hne] at hblank
    have hlast := hno _ (List.getLast_mem hne)
    rw [hblank _ rfl] at hlast
    cases hlast
  rw [reads_append_iff _ _ _ _ h hmore]
  constructor
  · rintro ⟨token, hsuffix, hliteral, hextends⟩
    obtain ⟨after, hspelled⟩ := formed_of_reads _ _ h token (hsuffix.subset (by simp))
    by_cases hkind : token.kind = .stringLiteral
    · obtain ⟨front, rfl⟩ := hsuffix
      rw [hkind] at hextends
      exact hopen token (by simp) ⟨hkind, hextends.1⟩
    · exact hend _ (spelled_ne_nil _ _ _ hspelled) hliteral (noBlank_spelled _ _ _ hspelled hkind)
  · rintro ⟨numeral, letter, -, hliteral, -, -, hletter, -⟩
    have hsuffix : letter.literal.toList <:+ text := (List.suffix_append _ _).trans hliteral
    rcases hletter with hletter | hletter
    all_goals
      rw [hletter] at hsuffix
      exact hend _ (by decide) hsuffix (by simp [NoBlank, isBlank])

theorem scan_text_between (kind : TokenKind) (hunscanned : kind ∉ unscanned) (hvaried : kind ∉ varied)
    (a b : String) (ha : ∀ c ∈ a.toList.getLast?, isBlank c = true)
    (hopen : ∀ token ∈ (scan a).dropLast.getLast?, ¬ token.Unclosed)
    (hb : ∀ c ∈ b.toList.head?, isBlank c = true) :
    scan (a ++ kind.text ++ b) = (scan a).dropLast ++ [⟨kind, kind.text⟩] ++ scan b := by
  obtain ⟨tokens, htokens, hscan⟩ := reads_scan a
  obtain ⟨moreTokens, hmore, hscanMore⟩ := reads_scan b
  rw [hscan, List.dropLast_concat] at hopen ⊢
  have hchunk := chunk_spelled kind ((mem_spelled_iff kind).mpr ⟨hunscanned, hvaried⟩)
  have hstopped : Stopped b.toList := fun c hc => isStop_of_isBlank c (hb c hc)
  have hreads := reads_append_blank _ _ _ _ htokens (hchunk _ _ hstopped hmore) ha hopen
  rw [← List.append_assoc, ← String.toList_append, ← String.toList_append, reads_iff] at hreads
  rw [hreads, hscanMore]
  simp [TokenKind.token]

/-! ## The two together -/

/-- A token before the end has a kind that occurs in texts, and the kind and the literal say the same of it. The
other way round, the text of a keyword, an operator or a mark is one token of that kind if blanks or nothing stand
around it. -/
theorem scan_kinds :
    (∀ (code : String) (token : Token), token ∈ scan code → token ≠ Token.eof →
      token.kind ∉ unscanned ∧
      (token.kind ∉ varied → token.literal = token.kind.text) ∧
      (token.kind.isKeyword = true ↔ token.literal ∈ keywordTable.map Prod.fst) ∧
      (token.literal ∈ keywordTable.map Prod.fst → ofWord token.literal = token.kind) ∧
      (token.kind = .identifier ↔ Named token.literal)) ∧
    ∀ kind : TokenKind, kind ∉ unscanned → kind ∉ varied →
      ∀ a b : String, (∀ c ∈ a.toList.getLast?, isBlank c = true) →
        (∀ token ∈ (scan a).dropLast.getLast?, ¬ token.Unclosed) →
        (∀ c ∈ b.toList.head?, isBlank c = true) →
        scan (a ++ kind.text ++ b) = (scan a).dropLast ++ [⟨kind, kind.text⟩] ++ scan b := by
  refine ⟨fun code token hmem hne => ?_, scan_text_between⟩
  rcases eof_or_formed code token hmem with heof | hformed
  · exact absurd heof hne
  · exact ⟨kind_not_unscanned token hformed, literal_eq_text token hformed, isKeyword_iff_mem_words token hformed,
      ofWord_literal token hformed, named_of_identifier token hformed, identifier_of_named token hformed⟩

theorem scan_kinds_sigil :
    (⟨.identifier, "$do"⟩ : Token) ∈ scan "$do < do" ∧ Named "$do" ∧
      (∀ c ∈ "x =\n".toList.getLast?, isBlank c = true) ∧
      (∀ token ∈ (scan "x =\n").dropLast.getLast?, ¬ token.Unclosed) ∧
      scan ("x =\n" ++ "==" ++ "") = [⟨.identifier, "x"⟩, ⟨.assign, "="⟩, ⟨.eq, "=="⟩, Token.eof] := by
  have hmem : (⟨.identifier, "$do"⟩ : Token) ∈ scan "$do < do" := by decide +kernel
  obtain ⟨-, -, -, -, hnamed⟩ := scan_kinds.1 _ _ hmem (by decide)
  have hfront : scan "x =\n" = [⟨.identifier, "x"⟩, ⟨.assign, "="⟩, Token.eof] := by decide +kernel
  have hblank : ∀ c ∈ "x =\n".toList.getLast?, isBlank c = true := by simp [isBlank]
  have hopen : ∀ token ∈ (scan "x =\n").dropLast.getLast?, ¬ token.Unclosed := by
    rw [hfront]
    rintro token htoken ⟨hkind, -⟩
    obtain rfl : ⟨.assign, "="⟩ = token := by simpa using htoken
    cases hkind
  have hscan := scan_kinds.2 .eq (by decide) (by decide) "x =\n" "" hblank hopen (by simp)
  have hend : scan "" = [Token.eof] := by decide +kernel
  rw [hfront, hend] at hscan
  exact ⟨hmem, hnamed.mp rfl, hblank, hopen, hscan⟩

end Mel
