import Mel.Proofs.Lexeme.Munch

/-!
# The first lexeme of a text

`first?` gives the one lexeme that the grammar spells at the start of a text and that the rest of the
text does not extend (`first?_eq_some_iff`). It is the longest one (`longest_of_stands`).
-/

namespace Mel.Lexeme

open Numeral TokenKind

/-! ## What `first?` reads is in the grammar -/

def SpelledIn (lexeme : Lexeme) (text : List Char) : Prop :=
  ∃ after, text = lexeme.chars ++ after ∧ Spelled lexeme.kind lexeme.chars after

theorem spelled_sigilName (rest : List Char) : SpelledIn (sigilName rest) ('$' :: rest) :=
  ⟨rest.dropWhile isWordChar, by simp [sigilName], .sigil fun _ hc => List.mem_takeWhile_imp hc⟩

theorem spelled_quoted (rest : List Char) : SpelledIn (quoted rest) ('"' :: rest) := by
  obtain ⟨body, hbody, h⟩ := Quoted.itemized rest
  rcases h with ⟨after, rfl⟩ | heq | rfl
  · refine ⟨after, ?_, ?_⟩
    all_goals simp only [quoted, Quoted.span_append _ _ hbody, Quoted.span_quote]
    · simp
    · exact .closed hbody
  · have hspan : Quoted.span rest = body := by
      simpa [Quoted.span, heq] using Quoted.span_append body [] hbody
    refine ⟨[], ?_, ?_⟩
    all_goals simp only [quoted, hspan]
    · simp [heq]
    · exact .unclosed hbody
  · refine ⟨[], ?_, ?_⟩
    all_goals simp only [quoted, Quoted.span_append _ _ hbody, Quoted.span]
    · simp
    · exact .dangling hbody

theorem spelled_word (c : Char) (rest : List Char) (h : isLetter c = true) :
    SpelledIn (word c rest) (c :: rest) := by
  refine ⟨rest.dropWhile isWordChar, by simp [word], ?_⟩
  have hword : isWord (c :: rest.takeWhile isWordChar) = true :=
    (isWord_iff _).mpr ⟨c, _, rfl, h, fun _ hd => List.mem_takeWhile_imp hd⟩
  simp only [word]
  rcases ofWord_cases (String.ofList (c :: rest.takeWhile isWordChar)) with ⟨hk, hno⟩ | ⟨hk, htext⟩
  · rw [hk]
    refine .word hword fun k hmem htext => hno k hmem ?_
    rw [← htext, String.ofList_toList]
  · generalize ofWord (String.ofList (c :: rest.takeWhile isWordChar)) = k at hk htext
    have hchars : k.text.toList = c :: rest.takeWhile isWordChar := by rw [htext, String.toList_ofList]
    rw [← hchars]
    exact .keyword hk

theorem spelled_hexadecimal (rest : List Char) :
    SpelledIn (hexadecimal rest) ('0' :: 'x' :: rest) :=
  ⟨rest.dropWhile Char.isHexDigit, by simp [hexadecimal], .hex fun _ hc => List.mem_takeWhile_imp hc⟩

theorem spelled_decimal (text : List Char)
    (h : startsWith Char.isDigit text ∨ ∃ rest, text = '.' :: rest ∧ startsWith Char.isDigit rest) :
    SpelledIn (decimal text) text := by
  obtain ⟨after, hafter⟩ := ofText_split text
  refine ⟨after, hafter, ?_⟩
  simp only [decimal]
  rcases form_ofText text h with ⟨hkind, hne, hdigits⟩ | ⟨hkind, hfloat⟩
  · rw [hkind]
    exact .integer hne hdigits
  · rw [hkind]
    exact .float hfloat

theorem spelled_symbol (c : Char) (rest : List Char) (hblank : isBlank c = false) (hd : c ≠ '$')
    (hq : c ≠ '"') (hl : isLetter c = false) (hdigit : c.isDigit = false) :
    SpelledIn (symbol c rest) (c :: rest) := by
  have hsingle : ∀ tail, SpelledIn ⟨singleKind c, [c]⟩ (c :: tail) := by
    intro tail
    refine ⟨tail, rfl, ?_⟩
    rcases singleKind_spelled c with hk | ⟨hk, htext⟩
    · have hno := (singleKind_eq_illegal_iff c).mp hk
      simp only [hk]
      exact .illegal ⟨hblank, hl, hdigit, hd, hq, hno⟩
    · simp only [← htext]
      exact .single hk
  cases rest with
  | nil => exact hsingle []
  | cons d rest =>
    cases hpair : pairKind? c d with
    | none =>
      simp only [symbol, hpair]
      exact hsingle (d :: rest)
    | some k =>
      obtain ⟨hk, htext⟩ := pairKind?_spelled c d k hpair
      simp only [symbol, hpair]
      refine ⟨rest, rfl, ?_⟩
      simp only [← htext]
      exact .pair hk

theorem spelled_ofCons (c : Char) (rest : List Char) (hblank : isBlank c = false) :
    SpelledIn (ofCons c rest) (c :: rest) := by
  by_cases hd : c = '$'
  · rw [hd, ofCons_dollar]
    exact spelled_sigilName rest
  by_cases hq : c = '"'
  · rw [hq, ofCons_quote]
    exact spelled_quoted rest
  by_cases hl : isLetter c = true
  · rw [ofCons_letter c rest hl]
    exact spelled_word c rest hl
  rw [Bool.not_eq_true] at hl
  by_cases hdigit : c.isDigit = true
  · by_cases hx : c = '0' ∧ rest.head? = some 'x'
    · obtain ⟨rfl, hx⟩ := hx
      obtain ⟨more, rfl⟩ := List.head?_eq_some_iff.mp hx
      rw [ofCons_hex]
      exact spelled_hexadecimal more
    · rw [ofCons_digit c rest hdigit hx]
      exact spelled_decimal _ (.inl ((startsWith_cons _ _ _).mpr hdigit))
  rw [Bool.not_eq_true] at hdigit
  by_cases hpoint : c = '.' ∧ startsWith Char.isDigit rest
  · obtain ⟨rfl, hrest⟩ := hpoint
    rw [ofCons_point rest hrest]
    exact spelled_decimal _ (.inr ⟨rest, rfl, hrest⟩)
  · rw [ofCons_symbol c rest hd hq hl hdigit hpoint]
    exact spelled_symbol c rest hblank hd hq hl hdigit

theorem spelled_first? (text : List Char) (lexeme : Lexeme) (hblank : ¬ startsWith isBlank text)
    (h : first? text = some lexeme) : SpelledIn lexeme text := by
  cases text with
  | nil => simp [first?] at h
  | cons c rest =>
    obtain rfl : ofCons c rest = lexeme := by simpa [first?] using h
    rw [startsWith_cons, Bool.not_eq_true] at hblank
    exact spelled_ofCons c rest hblank

/-! ## The first lexeme is the longest -/

/-- The lexeme is spelled before `after`, and `after` does not extend it. -/
def Stands (lexeme : Lexeme) (after : List Char) : Prop :=
  Spelled lexeme.kind lexeme.chars after ∧ ¬ Extends lexeme.kind lexeme.chars after

theorem first?_of_stands (lexeme : Lexeme) (after : List Char) (h : Stands lexeme after) :
    first? (lexeme.chars ++ after) = some lexeme := by
  obtain ⟨kind, more, hfirst, hkind, hmore⟩ := munches_of_spelled _ _ _ h.1 after
  have hnil : more = [] := by
    by_contra hne
    exact h.2 (hmore.mp hne)
  rw [hfirst, hnil, hkind hnil, List.append_nil]

theorem first?_eq_some_iff (text : List Char) (lexeme : Lexeme) (hblank : ¬ startsWith isBlank text) :
    first? text = some lexeme ↔ ∃ after, text = lexeme.chars ++ after ∧ Stands lexeme after := by
  constructor
  · intro h
    obtain ⟨after, htext, hspelled⟩ := spelled_first? text lexeme hblank h
    obtain ⟨kind, more, hfirst, -, hmore⟩ := munches_of_spelled _ _ _ hspelled after
    rw [← htext, h, Option.some.injEq] at hfirst
    have hnil : more = [] := by simpa using congrArg Lexeme.chars hfirst
    exact ⟨after, htext, hspelled, fun hextends => hmore.mpr hextends hnil⟩
  · rintro ⟨after, rfl, h⟩
    exact first?_of_stands lexeme after h

/-- Of all that the grammar spells at the start of the text, `chars` is the longest, and it is spelled as
one kind only. -/
structure Longest (text : List Char) (kind : TokenKind) (chars after : List Char) : Prop where
  nonempty : chars ≠ []
  split : text = chars ++ after
  spelled : Spelled kind chars after
  longest : ∀ kind' chars' after', text = chars' ++ after' → Spelled kind' chars' after' →
    chars'.length ≤ chars.length
  unique : ∀ kind', Spelled kind' chars after → kind' = kind

theorem longest_of_stands (lexeme : Lexeme) (after : List Char) (h : Stands lexeme after) :
    Longest (lexeme.chars ++ after) lexeme.kind lexeme.chars after := by
  have hfirst := first?_of_stands lexeme after h
  refine ⟨List.length_pos_iff.mp (length_chars_pos hfirst), rfl, h.1, ?_, ?_⟩
  · intro kind' chars' after' htext hspelled
    obtain ⟨kind, more, hmunch, -, -⟩ := munches_of_spelled _ _ _ hspelled after'
    rw [← htext, hfirst, Option.some.injEq] at hmunch
    simp [hmunch]
  · intro kind' hspelled
    obtain ⟨kind, more, hmunch, hkind, -⟩ := munches_of_spelled _ _ _ hspelled after
    rw [hfirst, Option.some.injEq] at hmunch
    have hnil : more = [] := by simpa using congrArg Lexeme.chars hmunch
    rw [← hkind hnil, hmunch]

end Mel.Lexeme
