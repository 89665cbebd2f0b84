import Mel.Proofs.Lexeme.Grammar

/-!
# The longest lexeme

`first?` gives the longest lexeme that the grammar allows. The main fact is `munches_of_spelled`: put a
text behind a lexeme, and `first?` gives the lexeme back if the text does not extend it, and a longer
one if it does.
-/

namespace Mel.Lexeme

open Numeral TokenKind

/-! ## Which rule reads a character -/

theorem ofCons_dollar (rest : List Char) : ofCons '$' rest = sigilName rest := by simp [ofCons]

theorem ofCons_quote (rest : List Char) : ofCons '"' rest = quoted rest := by simp [ofCons]

theorem ofCons_letter (c : Char) (rest : List Char) (h : isLetter c = true) : ofCons c rest = word c rest := by
  have hd : c ≠ '$' := by
    rintro rfl
    simp [isLetter] at h
  have hq : c ≠ '"' := by
    rintro rfl
    simp [isLetter] at h
  simp [ofCons, hd, hq, h]

theorem ofCons_hex (rest : List Char) : ofCons '0' ('x' :: rest) = hexadecimal rest := by
  simp [ofCons, isLetter]

theorem ofCons_digit (c : Char) (rest : List Char) (h : c.isDigit = true)
    (hx : ¬ (c = '0' ∧ rest.head? = some 'x')) : ofCons c rest = decimal (c :: rest) := by
  have hd : c ≠ '$' := by
    rintro rfl
    simp at h
  have hq : c ≠ '"' := by
    rintro rfl
    simp at h
  simp [ofCons, hd, hq, isLetter_of_isDigit c h, hx, h]

theorem ofCons_point (rest : List Char) (h : startsWith Char.isDigit rest) :
    ofCons '.' rest = decimal ('.' :: rest) := by
  unfold startsWith at h
  simp [ofCons, isLetter, h]

theorem ofCons_symbol (c : Char) (rest : List Char) (hd : c ≠ '$') (hq : c ≠ '"')
    (hl : isLetter c = false) (hdigit : c.isDigit = false)
    (hpoint : ¬ (c = '.' ∧ startsWith Char.isDigit rest)) : ofCons c rest = symbol c rest := by
  have hzero : c ≠ '0' := by
    rintro rfl
    simp at hdigit
  unfold startsWith at hpoint
  simp [ofCons, hd, hq, hl, hzero, hdigit, hpoint]

/-! ## A lexeme with text behind it -/

/-- With `after` behind the lexeme, `first?` reads it and then just what extends it. -/
def Munches (kind : TokenKind) (chars after : List Char) : Prop :=
  ∃ kind' more, first? (chars ++ after) = some ⟨kind', chars ++ more⟩ ∧
    (more = [] → kind' = kind) ∧ (more ≠ [] ↔ Extends kind chars after)

theorem munches_of_eq (kind : TokenKind) (chars after : List Char)
    (h : first? (chars ++ after) = some ⟨kind, chars⟩) (hno : ¬ Extends kind chars after) :
    Munches kind chars after :=
  ⟨kind, [], by simpa using h, fun _ => rfl, by simp [hno]⟩

theorem munches_sigil (name after : List Char) (h : ∀ c ∈ name, isWordChar c = true) :
    Munches .identifier ('$' :: name) after := by
  refine ⟨.identifier, after.takeWhile isWordChar, ?_, fun _ => rfl, ?_⟩
  · rw [List.cons_append, first?, ofCons_dollar, sigilName, List.takeWhile_append_of_pos h]
    rfl
  · rw [takeWhile_ne_nil]
    simp [Extends]

theorem first?_word (name after : List Char) (h : isWord name = true) :
    first? (name ++ after) =
      some ⟨.ofWord (String.ofList (name ++ after.takeWhile isWordChar)),
        name ++ after.takeWhile isWordChar⟩ := by
  obtain ⟨c, rest, rfl, hl, hrest⟩ := (isWord_iff name).mp h
  rw [List.cons_append, first?, ofCons_letter _ _ hl, word, List.takeWhile_append_of_pos hrest]
  rfl

theorem munches_word (name after : List Char) (h : isWord name = true)
    (hkey : ∀ k ∈ keywords, k.text.toList ≠ name) : Munches .identifier name after := by
  refine ⟨_, _, first?_word name after h, ?_, ?_⟩
  · intro hnil
    apply ofWord_of_not_keyword
    intro k hk htext
    exact hkey k hk (by simp [htext, hnil])
  · rw [takeWhile_ne_nil]
    simp [Extends]

theorem munches_keyword (k : TokenKind) (after : List Char) (h : k ∈ keywords) :
    Munches k k.text.toList after := by
  refine ⟨_, _, first?_word _ after (isWord_keyword k h), ?_, ?_⟩
  · intro hnil
    rw [hnil, List.append_nil, String.ofList_toList, ofWord_text k h]
  · rw [takeWhile_ne_nil, extends_keyword_iff _ _ _ h]

theorem munches_hex (digits after : List Char) (h : ∀ c ∈ digits, c.isHexDigit = true) :
    Munches .hexInteger ('0' :: 'x' :: digits) after := by
  refine ⟨.hexInteger, after.takeWhile Char.isHexDigit, ?_, fun _ => rfl, ?_⟩
  · rw [List.cons_append, List.cons_append, first?, ofCons_hex, hexadecimal,
      List.takeWhile_append_of_pos h]
    rfl
  · rw [takeWhile_ne_nil]
    simp [Extends]

theorem head_digits_append (digits text : List Char) (h : Digits digits)
    (hx : (digits ++ text).head? = some 'x') : digits = [] ∧ text.head? = some 'x' := by
  cases digits with
  | nil => exact ⟨rfl, hx⟩
  | cons d digits =>
    obtain rfl : d = 'x' := by simpa using hx
    exact absurd (h 'x' List.mem_cons_self) (by decide)

theorem munches_zero (more : List Char) : Munches .integer ['0'] ('x' :: more) := by
  refine ⟨.hexInteger, 'x' :: more.takeWhile Char.isHexDigit, ?_, by simp, by simp [Extends]⟩
  rw [List.singleton_append, first?, ofCons_hex]
  rfl

theorem munches_integer (digits after : List Char) (hne : digits ≠ []) (h : Digits digits) :
    Munches .integer digits after := by
  obtain ⟨c, rest, rfl⟩ := List.exists_cons_of_ne_nil hne
  have hc : c.isDigit = true := h c List.mem_cons_self
  have hrest : Digits rest := fun d hd => h d (List.mem_cons_of_mem _ hd)
  by_cases hx : c = '0' ∧ (rest ++ after).head? = some 'x'
  · obtain ⟨rfl, hx⟩ := hx
    obtain ⟨rfl, hafter⟩ := head_digits_append rest after hrest hx
    -- A zero alone becomes the start of a hexadecimal number.
    obtain ⟨more, rfl⟩ := List.head?_eq_some_iff.mp hafter
    exact munches_zero more
  · obtain ⟨more, hchars, hkind, hmore⟩ := integer_append (c :: rest) after h
    refine ⟨_, more, ?_, hkind, ?_⟩
    · rw [List.cons_append, first?, ofCons_digit _ _ hc hx, decimal, ← List.cons_append, hchars]
    · have hzero : ¬ (c :: rest = ['0'] ∧ after.head? = some 'x') := by
        rintro ⟨hcons, hhead⟩
        obtain ⟨rfl, rfl⟩ : c = '0' ∧ rest = [] := by simpa using hcons
        exact hx ⟨rfl, hhead⟩
      simp only [hmore, Extends, hzero, or_false]

theorem first?_digits_append (digits text : List Char) (hne : digits ≠ []) (h : Digits digits)
    (hx : text.head? ≠ some 'x') : first? (digits ++ text) = some (decimal (digits ++ text)) := by
  obtain ⟨c, rest, rfl⟩ := List.exists_cons_of_ne_nil hne
  have hrest : Digits rest := fun d hd => h d (List.mem_cons_of_mem _ hd)
  rw [List.cons_append, first?, ofCons_digit _ _ (h c List.mem_cons_self)]
  rintro ⟨-, hhead⟩
  exact hx (head_digits_append rest text hrest hhead).2

theorem first?_float (numeral after : List Char) (h : Float numeral) :
    first? (numeral ++ after) = some (decimal (numeral ++ after)) := by
  cases h with
  | point hne hw _ _ =>
    simp only [List.append_assoc, List.cons_append]
    exact first?_digits_append _ _ hne hw (by simp)
  | @bare fraction exponent hne hf _ =>
    obtain ⟨d, rest, rfl⟩ := List.exists_cons_of_ne_nil hne
    have hd : d.isDigit = true := hf d List.mem_cons_self
    simp only [List.cons_append, first?]
    rw [ofCons_point _ ((startsWith_cons _ _ _).mpr hd)]
  | scaled hne hw hx =>
    obtain ⟨hl, -, -⟩ := hx
    rw [List.append_assoc]
    exact first?_digits_append _ _ hne hw (by rcases hl with rfl | rfl <;> simp)

theorem munches_float (numeral after : List Char) (h : Float numeral) : Munches .float numeral after := by
  obtain ⟨more, hchars, hkind, hmore⟩ := float_append numeral after h
  refine ⟨_, more, ?_, fun _ => hkind, hmore⟩
  rw [first?_float _ _ h, decimal, hchars]

theorem munches_closed (body after : List Char) (h : Quoted.Items body) :
    Munches .stringLiteral ('"' :: (body ++ ['"'])) after := by
  apply munches_of_eq
  · have hspan : Quoted.span (body ++ ['"'] ++ after) = body ++ ['"'] := by
      rw [List.append_assoc, Quoted.span_append _ _ h, List.singleton_append, Quoted.span_quote]
    rw [List.cons_append, first?, ofCons_quote, quoted, hspan]
  · rintro ⟨hopen, -⟩
    exact hopen ⟨body, h, rfl⟩

theorem munches_unclosed (body after : List Char) (h : Quoted.Items body) :
    Munches .stringLiteral ('"' :: body) after := by
  refine ⟨.stringLiteral, Quoted.span after, ?_, fun _ => rfl, ?_⟩
  · rw [List.cons_append, first?, ofCons_quote, quoted, Quoted.span_append _ _ h]
    rfl
  · rw [Extends, ne_eq, Quoted.span_eq_nil_iff]
    simp [Quoted.not_closed_of_items body h]

theorem munches_dangling (body after : List Char) (h : Quoted.Items body) :
    Munches .stringLiteral ('"' :: (body ++ ['\\'])) after := by
  refine ⟨.stringLiteral, after.take 1 ++ Quoted.span (after.drop 1), ?_, fun _ => rfl, ?_⟩
  · have hspan : Quoted.span (body ++ ['\\'] ++ after) =
        body ++ ['\\'] ++ (after.take 1 ++ Quoted.span (after.drop 1)) := by
      rw [List.append_assoc, Quoted.span_append _ _ h]
      cases after <;> simp [Quoted.span]
    rw [List.cons_append, first?, ofCons_quote, quoted, hspan]
    rfl
  · cases after <;> simp [Extends, Quoted.not_closed_of_dangling, Quoted.span]

/-! ### Operators, punctuation and the rest -/

theorem first?_symbol (k : TokenKind) (h : k ∈ singles ++ pairs) (c : Char) (hc : c ∈ k.text.toList)
    (after : List Char) : first? (c :: after) = some (symbol c after) := by
  obtain ⟨hd, hq, hl, hdigit, hdot, -⟩ := symbol_char k h c hc
  rw [first?, ofCons_symbol _ _ hd hq hl hdigit (fun hpoint => hdot hpoint.1)]

theorem munches_pair (k : TokenKind) (after : List Char) (h : k ∈ pairs) :
    Munches k k.text.toList after := by
  obtain ⟨c, d, htext, hpair⟩ := pairKind?_text k h
  apply munches_of_eq
  · have hfirst := first?_symbol k (List.mem_append_right _ h) c (by simp [htext]) (d :: after)
    simpa [htext, symbol, hpair] using hfirst
  · have hsolid : ∀ k ∈ pairs, k ∉ [assign, bang, lt, gt] := by decide
    exact not_extends_solid k _ _ (List.mem_append_right _ h) (hsolid k h)

theorem pairKind?_isSome_iff (c d : Char) (rest : List Char) (h : singleKind c ∈ singles)
    (htext : (singleKind c).text.toList = [c]) :
    (pairKind? c d).isSome = true ↔ Extends (singleKind c) [c] (d :: rest) := by
  have hkey := isKeyword_eq_false (singleKind c) (List.mem_append_left _ h)
  generalize singleKind c = k at h htext hkey
  simp only [singles, List.mem_cons, List.not_mem_nil, or_false] at h
  rcases h with rfl | rfl | rfl | rfl | rfl | rfl | rfl | rfl | rfl | rfl | rfl | rfl | rfl | rfl | rfl | rfl
  all_goals
    obtain rfl : _ = c := by simpa [text] using htext
    simp [pairKind?, Extends, hkey]

theorem munches_single (k : TokenKind) (after : List Char) (h : k ∈ singles) :
    Munches k k.text.toList after := by
  obtain ⟨c, htext, rfl⟩ := singleKind_text k h
  have hfirst := first?_symbol _ (List.mem_append_left _ h) c (by simp [htext]) after
  rw [htext]
  cases after with
  | nil => exact munches_of_eq _ _ _ hfirst (not_extends_nil _ _)
  | cons d rest =>
    have hiff := pairKind?_isSome_iff c d rest h htext
    cases hpair : pairKind? c d with
    | none =>
      apply munches_of_eq
      · simpa [symbol, hpair] using hfirst
      · simpa [hpair] using hiff
    | some kind =>
      refine ⟨kind, [d], ?_, by simp, ?_⟩
      · simpa [symbol, hpair] using hfirst
      · simpa [hpair] using hiff

theorem pairKind?_misfit (c d : Char) (h : Misfit c) : pairKind? c d = none := by
  have hfirst : ∀ k ∈ pairs, ∃ k' ∈ singles, k'.text.toList = k.text.toList.take 1 := by decide
  obtain ⟨-, -, -, -, -, hsingle⟩ := h
  cases hpair : pairKind? c d with
  | none => rfl
  | some k =>
    obtain ⟨hk, htext⟩ := pairKind?_spelled c d k hpair
    obtain ⟨k', hk', htext'⟩ := hfirst k hk
    exact absurd (by simp [htext', htext]) (hsingle k' hk')

theorem munches_illegal (c : Char) (after : List Char) (h : Misfit c) : Munches .illegal [c] after := by
  obtain ⟨-, hl, hdigit, hd, hq, hsingle⟩ := id h
  by_cases hpoint : c = '.' ∧ startsWith Char.isDigit after
  · obtain ⟨rfl, hafter⟩ := hpoint
    obtain ⟨more, hchars, -, hmore⟩ := point_append [] [] after (by simp [Digits]) (by simp [Digits])
    simp only [List.nil_append, List.cons_append] at hchars
    have hne := hmore.mpr (.inl hafter)
    refine ⟨(ofText ('.' :: after)).kind, more, ?_, fun hnil => absurd hnil hne, ?_⟩
    · rw [List.singleton_append, first?, ofCons_point _ hafter, decimal, hchars]
      rfl
    · simp [Extends, hafter, hne]
  · apply munches_of_eq
    · rw [List.singleton_append, first?, ofCons_symbol _ _ hd hq hl hdigit hpoint]
      cases after with
      | nil => simp [symbol, (singleKind_eq_illegal_iff c).mpr hsingle]
      | cons d rest =>
        simp [symbol, pairKind?_misfit c d h, (singleKind_eq_illegal_iff c).mpr hsingle]
    · simpa [Extends] using hpoint

theorem munches_of_spelled (kind : TokenKind) (chars before : List Char)
    (h : Spelled kind chars before) (after : List Char) : Munches kind chars after := by
  cases h with
  | sigil hname => exact munches_sigil _ _ hname
  | word hword hkey => exact munches_word _ _ hword hkey
  | keyword hk => exact munches_keyword _ _ hk
  | hex hdigits => exact munches_hex _ _ hdigits
  | integer hne hdigits => exact munches_integer _ _ hne hdigits
  | float hfloat => exact munches_float _ _ hfloat
  | closed hbody => exact munches_closed _ _ hbody
  | unclosed hbody => exact munches_unclosed _ _ hbody
  | dangling hbody => exact munches_dangling _ _ hbody
  | pair hk => exact munches_pair _ _ hk
  | single hk => exact munches_single _ _ hk
  | illegal hc => exact munches_illegal _ _ hc

end Mel.Lexeme
