import Mathlib.Data.List.Basic
import Mathlib.Data.List.Flatten
import Mel.Proofs.Scan.Reads

/-!
# Where a text may be cut

Two texts put together hold the tokens of the one and then those of the other, unless a token runs
across the cut. `scan_append_iff` says exactly when one does.
-/

namespace Mel

open Lexeme

/-! ## What runs across a cut -/

/-- The last token reaches the end of the text, and what follows makes it longer. -/
def Grows (text : List Char) (tokens : List Token) (more : List Char) : Prop :=
  ∃ token, [token] <:+ tokens ∧ token.literal.toList <:+ text ∧
    Extends token.kind token.literal.toList more

/-- A numeral with the letter of an exponent right behind it ends the text. The letter is a word until a sign
follows it. -/
def Joins (text : List Char) (tokens : List Token) (more : List Char) : Prop :=
  ∃ numeral letter, [numeral, letter] <:+ tokens ∧
    numeral.literal.toList ++ letter.literal.toList <:+ text ∧
    Scalable numeral.kind numeral.literal.toList ∧
    letter.kind = .identifier ∧ (letter.literal = "e" ∨ letter.literal = "E") ∧
    startsWith Numeral.isSign more

/-! ## The end of a text -/

theorem reads_sublist (text : List Char) (tokens : List Token) (h : Reads text tokens) :
    List.Sublist (tokens.flatMap (·.literal.toList)) text := by
  induction h with
  | blank => exact List.nil_sublist _
  | token _ _ _ ih =>
    rw [List.flatMap_cons]
    exact ((List.Sublist.append (by simp) ih)).trans (List.sublist_append_right _ _)

theorem suffix_append_iff (front text : List Char) (tokens last : List Token) (h : Reads text tokens)
    (hlast : last <:+ tokens) :
    last.flatMap (·.literal.toList) <:+ front ++ text ↔ last.flatMap (·.literal.toList) <:+ text := by
  have hsub : List.Sublist (last.flatMap (·.literal.toList)) text :=
    (hlast.sublist.flatMap _).trans (reads_sublist text tokens h)
  constructor
  · intro hsuffix
    exact List.suffix_of_suffix_length_le hsuffix (List.suffix_append _ _) hsub.length_le
  · intro hsuffix
    exact hsuffix.trans (List.suffix_append _ _)

theorem gap_eq_nil (chars front gap : List Char) (hne : chars ≠ []) (hgap : Blank gap)
    (hlast : ∀ c, chars.getLast? = some c → isBlank c = false) (h : chars <:+ front ++ gap) : gap = [] := by
  by_contra hgapne
  obtain ⟨before, hbefore⟩ := h
  have hend := congrArg List.getLast? hbefore
  rw [List.getLast?_append_of_ne_nil _ hne, List.getLast?_append_of_ne_nil _ hgapne,
    List.getLast?_eq_some_getLast hgapne] at hend
  have hblank := hgap _ (List.getLast_mem hgapne)
  rw [hlast _ hend] at hblank
  cases hblank

theorem not_blank_last (lexeme : Lexeme) (after : List Char) (h : Stands lexeme after) (hne : after ≠ []) :
    ∀ c, lexeme.chars.getLast? = some c → isBlank c = false := by
  intro c hc
  by_cases hkind : lexeme.kind = .stringLiteral
  · rcases (spelled_string _ _ _ h.1 hkind).2 with ⟨body, -, hchars⟩ | ⟨hnil, -⟩
    · rw [hchars, ← List.cons_append, List.getLast?_concat, Option.some.injEq] at hc
      rw [← hc]
      rfl
    · exact absurd hnil hne
  · exact noBlank_spelled _ _ _ h.1 hkind c (List.mem_of_getLast? hc)

theorem reads_nil_iff (text : List Char) : Reads text [] ↔ Blank text := by
  constructor
  · rintro ⟨h⟩
    exact h
  · exact .blank

theorem reads_letter (c : Char) (hc : c = 'e' ∨ c = 'E') :
    Reads [c] [⟨.identifier, String.ofList [c]⟩] := by
  have hstands : Stands ⟨.identifier, [c]⟩ [] := by
    refine ⟨.word ?_ ?_, not_extends_nil _ _⟩
    · rcases hc with rfl | rfl <;> rfl
    · rcases hc with rfl | rfl <;> decide
  exact .token blank_nil hstands reads_nil

theorem eq_singleton_of_suffix (chars front after : List Char) (c : Char) (token : Token)
    (hreads : Reads after [token]) (htoken : token.literal.toList = [c]) (hc : isBlank c = false)
    (hne : chars ≠ []) (hno : NoBlank chars) (h : chars ++ [c] <:+ front ++ after) : after = [c] := by
  generalize hrow : [token] = row at hreads
  cases hreads with
  | blank => cases hrow
  | @token blanks gap lexeme _ hb _ hgap =>
    obtain ⟨rfl, rfl⟩ := List.cons.inj hrow
    obtain hchars : lexeme.chars = [c] := by simpa using htoken
    rw [hchars] at h ⊢
    have hlast : ∀ d, (chars ++ [c]).getLast? = some d → isBlank d = false := by
      intro d hd
      rw [List.getLast?_concat, Option.some.injEq] at hd
      rwa [← hd]
    rw [← List.append_assoc, ← List.append_assoc] at h
    obtain rfl := gap_eq_nil _ _ _ (by simp) ((reads_nil_iff gap).mp hgap) hlast h
    -- Without the gap the character ends both texts, and the same holds of the blanks before it.
    obtain ⟨before, hbefore⟩ := h
    rw [List.append_nil, ← List.append_assoc, List.append_cancel_right_eq] at hbefore
    have hchar : ∀ d, chars.getLast? = some d → isBlank d = false :=
      fun d hd => hno d (List.mem_of_getLast? hd)
    obtain rfl := gap_eq_nil _ _ _ hne hb hchar ⟨before, hbefore⟩
    rfl

/-! ## Token by token -/

theorem stands_append_iff (lexeme : Lexeme) (after more : List Char) (h : Stands lexeme after) :
    Stands lexeme (after ++ more) ↔
      ¬ (after = [] ∧ Extends lexeme.kind lexeme.chars more) ∧
        ¬ (Scalable lexeme.kind lexeme.chars ∧ (after = ['e'] ∨ after = ['E']) ∧
          startsWith Numeral.isSign more) := by
  have hstands : Stands lexeme (after ++ more) ↔ ¬ Extends lexeme.kind lexeme.chars (after ++ more) :=
    ⟨fun hnew => hnew.2, fun hno => ⟨spelled_of_not_extends _ _ _ _ h.1 hno, hno⟩⟩
  rw [hstands]
  by_cases hnil : after = []
  · simp [hnil]
  · rw [extends_append_iff _ _ _ _ hnil]
    simp [hnil, h.2]

theorem reads_token_iff (blanks after : List Char) (lexeme : Lexeme) (tokens : List Token)
    (hb : Blank blanks) :
    Reads (blanks ++ (lexeme.chars ++ after)) (lexeme.token :: tokens) ↔
      Stands lexeme after ∧ Reads after tokens := by
  constructor
  · intro hreads
    generalize htext : blanks ++ (lexeme.chars ++ after) = text at hreads
    generalize hrow : lexeme.token :: tokens = row at hreads
    cases hreads with
    | blank => cases hrow
    | @token blanks' after' lexeme' tokens' hb' hstands hreads =>
      obtain ⟨htoken, rfl⟩ := List.cons.inj hrow
      obtain rfl := token_injective _ _ htoken
      -- Both texts start with the same lexeme, so the blanks before it are the same.
      have hblanks := congrArg (List.takeWhile isBlank) htext
      rw [takeWhile_append_eq _ _ _ hb (not_blank_spelled _ _ _ _ hstands.1),
        takeWhile_append_eq _ _ _ hb' (not_blank_spelled _ _ _ _ hstands.1)] at hblanks
      rw [hblanks, List.append_cancel_left_eq, List.append_cancel_left_eq] at htext
      rw [htext]
      exact ⟨hstands, hreads⟩
  · rintro ⟨hstands, hreads⟩
    exact .token hb hstands hreads

theorem grows_token_iff (blanks after more : List Char) (lexeme : Lexeme) (tokens : List Token)
    (hstands : Stands lexeme after) (hreads : Reads after tokens) :
    Grows (blanks ++ lexeme.chars ++ after) (lexeme.token :: tokens) more ↔
      (after = [] ∧ Extends lexeme.kind lexeme.chars more) ∨ Grows after tokens more := by
  constructor
  · rintro ⟨token, hlast, hsuffix, hextends⟩
    rcases List.suffix_cons_iff.mp hlast with heq | hlast
    · obtain ⟨rfl, rfl⟩ : token = lexeme.token ∧ tokens = [] := by simpa [eq_comm] using heq
      rw [toList_literal] at hsuffix hextends
      refine .inl ⟨?_, hextends⟩
      by_contra hne
      exact hne (gap_eq_nil _ _ _ (spelled_ne_nil _ _ _ hstands.1) ((reads_nil_iff after).mp hreads)
        (not_blank_last _ _ hstands hne) hsuffix)
    · have hiff := suffix_append_iff (blanks ++ lexeme.chars) after tokens [token] hreads hlast
      simp only [List.flatMap_singleton] at hiff
      exact .inr ⟨token, hlast, hiff.mp hsuffix, hextends⟩
  · rintro (⟨rfl, hextends⟩ | ⟨token, hlast, hsuffix, hextends⟩)
    · obtain rfl : tokens = [] := reads_unique _ _ _ hreads reads_nil
      refine ⟨lexeme.token, List.suffix_rfl, ?_, ?_⟩
      · rw [toList_literal, List.append_nil]
        exact List.suffix_append _ _
      · rwa [toList_literal]
    · exact ⟨token, hlast.trans (List.suffix_cons _ _), hsuffix.trans (List.suffix_append _ _), hextends⟩

theorem joins_token_iff (blanks after more : List Char) (lexeme : Lexeme) (tokens : List Token)
    (hstands : Stands lexeme after) (hreads : Reads after tokens) :
    Joins (blanks ++ lexeme.chars ++ after) (lexeme.token :: tokens) more ↔
      (Scalable lexeme.kind lexeme.chars ∧ (after = ['e'] ∨ after = ['E']) ∧
        startsWith Numeral.isSign more) ∨ Joins after tokens more := by
  constructor
  · rintro ⟨numeral, letter, hlast, hsuffix, hscalable, hkind, hletter, hsign⟩
    rcases List.suffix_cons_iff.mp hlast with heq | hlast
    · obtain ⟨rfl, rfl⟩ : numeral = lexeme.token ∧ tokens = [letter] := by simpa [eq_comm] using heq
      rw [toList_literal] at hsuffix hscalable
      have hno := noBlank_spelled _ _ _ hstands.1 (scalable_ne_string _ _ hscalable)
      have hafter : ∀ c, isBlank c = false → letter.literal.toList = [c] → after = [c] := by
        intro c hc hchars
        rw [hchars] at hsuffix
        exact eq_singleton_of_suffix _ _ _ c letter hreads hchars hc (spelled_ne_nil _ _ _ hstands.1) hno hsuffix
      refine .inl ⟨hscalable, ?_, hsign⟩
      rcases hletter with hletter | hletter
      · exact .inl (hafter 'e' rfl (by rw [hletter]; rfl))
      · exact .inr (hafter 'E' rfl (by rw [hletter]; rfl))
    · have hiff := suffix_append_iff (blanks ++ lexeme.chars) after tokens [numeral, letter] hreads hlast
      simp only [List.flatMap_cons, List.flatMap_nil, List.append_nil] at hiff
      exact .inr ⟨numeral, letter, hlast, hiff.mp hsuffix, hscalable, hkind, hletter, hsign⟩
  · rintro (⟨hscalable, hafter, hsign⟩ | ⟨numeral, letter, hlast, hsuffix, h⟩)
    · obtain ⟨c, hc, rfl⟩ : ∃ c, (c = 'e' ∨ c = 'E') ∧ after = [c] := by
        rcases hafter with rfl | rfl
        · exact ⟨'e', .inl rfl, rfl⟩
        · exact ⟨'E', .inr rfl, rfl⟩
      obtain rfl := reads_unique _ _ _ hreads (reads_letter c hc)
      refine ⟨lexeme.token, _, List.suffix_rfl, ?_, ?_, rfl, ?_, hsign⟩
      · rw [toList_literal, String.toList_ofList, List.append_assoc]
        exact List.suffix_append _ _
      · rwa [toList_literal]
      · rcases hc with rfl | rfl
        · exact .inl rfl
        · exact .inr rfl
    · exact ⟨numeral, letter, hlast.trans (List.suffix_cons _ _), hsuffix.trans (List.suffix_append _ _), h⟩

theorem reads_append_iff (text more : List Char) (tokens moreTokens : List Token)
    (h : Reads text tokens) (hmore : Reads more moreTokens) :
    Reads (text ++ more) (tokens ++ moreTokens) ↔ ¬ Grows text tokens more ∧ ¬ Joins text tokens more := by
  induction h with
  | blank hb =>
    have hreads := reads_blank_append _ _ _ hb hmore
    simp [hreads, Grows, Joins]
  | @token blanks after lexeme tokens hb hstands hreads ih =>
    rw [← List.append_assoc, grows_token_iff _ _ _ _ _ hstands hreads, joins_token_iff _ _ _ _ _ hstands hreads,
      List.cons_append, List.append_assoc, List.append_assoc,
      reads_token_iff _ _ _ _ hb, stands_append_iff _ _ _ hstands, ih]
    tauto

/-! ## The cut law -/

theorem scan_append_iff (a r : String) :
    scan (a ++ r) = (scan a).dropLast ++ scan r ↔
      ¬ Grows a.toList (scan a).dropLast r.toList ∧ ¬ Joins a.toList (scan a).dropLast r.toList := by
  obtain ⟨tokens, htokens, hscan⟩ := reads_scan a
  obtain ⟨moreTokens, hmore, hscanMore⟩ := reads_scan r
  rw [hscan, hscanMore, List.dropLast_concat, ← reads_append_iff _ _ _ _ htokens hmore, ← List.append_assoc,
    ← reads_iff, String.toList_append]

end Mel
