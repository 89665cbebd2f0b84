import Mel.Proofs.Scanner.Cursor

/-!
# The routines of a cursor

Each routine moves the cursor over one token and cuts it out. It passes just the lexeme that the scanner takes
there (`scans_tokenAt`). So no run of the cursor goes wrong, and it gives the tokens of the scanner
(`tokens_safe`).
-/

namespace Mel

open Lexeme

/-! ## The routines -/

namespace Move

/-- A token of what the move goes over. Its kind may depend on the move and on what was cut. -/
def token {α : Type} (kind : α → String → TokenKind) (move : Move α) : Move Token := do
  let (a, literal) ← move.cut
  return ⟨kind a literal, literal⟩

def single (kind : TokenKind) (c : Char) : Move Token := do
  advance
  return ⟨kind, String.ofList [c]⟩

def pairOrSingle (second : Char) (pair one : TokenKind) : Move TokenKind := do
  if (← peek) = some second then
    advance
    advance
    return pair
  else
    advance
    return one

def word : Move Unit := do
  advance
  skipWhile isWordChar

/-- One item of a quoted text. The closing quote is the last. -/
def item : Move Bool := do
  match ← current with
  | none => return false
  | some c =>
    if c = '"' then
      advance
      return false
    else if c = '\\' then
      advance
      advance
      return true
    else
      advance
      return true

def quoted : Move Unit := do
  advance
  loop item

def hexadecimal : Move Unit := do
  advance
  advance
  skipWhile Char.isHexDigit

def fraction : Move Bool := do
  if (← current) = some '.' then
    advance
    skipWhile Char.isDigit
    return true
  else return false

def exponent : Move Bool := do
  if (← current).any (fun c => c = 'e' || c = 'E') && (← peek).any Numeral.isSign then
    advance
    advance
    skipWhile Char.isDigit
    return true
  else return false

def number : Move TokenKind := do
  skipWhile Char.isDigit
  let hasFraction ← fraction
  let hasExponent ← exponent
  return if hasFraction || hasExponent then .float else .integer

def symbol (c : Char) : Move Token :=
  if c = '=' then token (fun kind _ => kind) (pairOrSingle '=' .eq .assign)
  else if c = '!' then token (fun kind _ => kind) (pairOrSingle '=' .notEq .bang)
  else if c = '<' then token (fun kind _ => kind) (pairOrSingle '<' .doubleLt .lt)
  else if c = '>' then token (fun kind _ => kind) (pairOrSingle '>' .doubleGt .gt)
  else single (singleKind c) c

/-- The token that starts with the character. The one behind it decides what a zero or a point is. -/
def tokenAt (c : Char) (next : Option Char) : Move Token :=
  if singleKind c ≠ .illegal then symbol c
  else if c = '$' then token (fun _ _ => .identifier) word
  else if c = '"' then token (fun _ _ => .stringLiteral) quoted
  else if isLetter c then token (fun _ literal => .ofWord literal) word
  else if c = '0' && next = some 'x' then token (fun _ _ => .hexInteger) hexadecimal
  else if c.isDigit || (c = '.' && next.any Char.isDigit) then token (fun kind _ => kind) number
  else single .illegal c

def tokenAhead : Move Token := do
  match ← current with
  | none => return Token.eof
  | some c => tokenAt c (← peek)

def nextToken : Move Token := do
  skipWhile isBlank
  tokenAhead

def tokens : Nat → Move (List Token)
  | 0 => return []
  | n + 1 => do
    let token ← nextToken
    let more ← tokens n
    return token :: more

end Move

/-! ## What a routine passes -/

/-- The move passes the lexeme that the text starts with, and gives its token. -/
def Scans (move : Move Token) (text : List Char) (lexeme : Lexeme) : Prop :=
  ∃ after, text = lexeme.chars ++ after ∧ Passes move lexeme.chars after lexeme.token

theorem passes_token {α : Type} (kind : α → String → TokenKind) (move : Move α) (chars after : List Char) (a : α)
    (h : Passes move chars after a) (hne : chars ≠ []) :
    Passes (move.token kind) chars after ⟨kind a (String.ofList chars), String.ofList chars⟩ :=
  passes_return move.cut (fun cut => (⟨kind cut.1 cut.2, cut.2⟩ : Token)) chars after _
    (passes_cut move chars after a h hne)

theorem passes_two {α : Type} (c d : Char) (move : Move α) (chars after : List Char) (a : α)
    (h : Passes move chars after a) :
    Passes (do Move.advance; Move.advance; move) (c :: d :: chars) after a :=
  passes_bind _ _ [c] (d :: chars) after () a (passes_advance c _)
    (passes_bind _ _ [d] chars after () a (passes_advance d _) h)

/-! ### Operators and marks -/

theorem scans_single (kind : TokenKind) (c : Char) (rest : List Char) :
    Scans (Move.single kind c) (c :: rest) ⟨kind, [c]⟩ :=
  ⟨rest, rfl, passes_return _ (fun _ => (⟨kind, String.ofList [c]⟩ : Token)) [c] rest () (passes_advance c rest)⟩

theorem symbol_of_pair (second c : Char) (pair : TokenKind) (rest : List Char)
    (h : ∀ d, pairKind? c d = if d = second then some pair else none) :
    Lexeme.symbol c rest = if rest.head? = some second then ⟨pair, [c, second]⟩ else ⟨singleKind c, [c]⟩ := by
  cases rest with
  | nil => rfl
  | cons d rest => by_cases hd : d = second <;> simp [Lexeme.symbol, h, hd]

theorem scans_pair (second c : Char) (pair : TokenKind) (rest : List Char)
    (hpair : ∀ d, pairKind? c d = if d = second then some pair else none) :
    Scans (Move.token (fun kind _ => kind) (Move.pairOrSingle second pair (singleKind c))) (c :: rest)
      (Lexeme.symbol c rest) := by
  rw [symbol_of_pair second c pair rest hpair]
  by_cases h : rest.head? = some second
  · obtain ⟨after, rfl⟩ := List.head?_eq_some_iff.mp h
    rw [if_pos h]
    refine ⟨after, rfl, passes_token _ _ [c, second] after pair ?_ (by simp)⟩
    apply passes_peek
    rw [if_pos (by rfl)]
    exact passes_two c second _ [] after pair (passes_pure after pair)
  · rw [if_neg h]
    refine ⟨rest, rfl, passes_token _ _ [c] rest (singleKind c) ?_ (by simp)⟩
    apply passes_peek
    rw [List.singleton_append, List.getElem?_cons_succ, ← List.head?_eq_getElem?, if_neg h]
    exact passes_return _ (fun _ => singleKind c) [c] rest () (passes_advance c rest)

theorem symbol_of_no_pair (c : Char) (rest : List Char) (h : ∀ d, pairKind? c d = none) :
    Lexeme.symbol c rest = ⟨singleKind c, [c]⟩ := by
  cases rest with
  | nil => rfl
  | cons d rest => simp [Lexeme.symbol, h]

theorem scans_symbol (c : Char) (rest : List Char) : Scans (Move.symbol c) (c :: rest) (Lexeme.symbol c rest) := by
  unfold Move.symbol
  split_ifs with heq hbang hlt hgt
  · subst heq
    exact scans_pair '=' '=' .eq rest (by simp [pairKind?])
  · subst hbang
    exact scans_pair '=' '!' .notEq rest (by simp [pairKind?])
  · subst hlt
    exact scans_pair '<' '<' .doubleLt rest (by simp [pairKind?])
  · subst hgt
    exact scans_pair '>' '>' .doubleGt rest (by simp [pairKind?])
  · rw [symbol_of_no_pair c rest (by simp [pairKind?, heq, hbang, hlt, hgt])]
    exact scans_single (singleKind c) c rest

/-! ### Words and data -/

theorem passes_word (c : Char) (rest : List Char) :
    Passes Move.word (c :: rest.takeWhile isWordChar) (rest.dropWhile isWordChar) () :=
  passes_bind _ _ [c] _ _ () () (passes_advance c _) (passes_skipWhile_takeWhile isWordChar rest)

theorem scans_sigilName (rest : List Char) :
    Scans (Move.token (fun _ _ => .identifier) Move.word) ('$' :: rest) (sigilName rest) :=
  ⟨rest.dropWhile isWordChar, by simp [sigilName],
    passes_token _ _ _ _ () (passes_word '$' rest) (List.cons_ne_nil _ _)⟩

theorem scans_word (c : Char) (rest : List Char) :
    Scans (Move.token (fun _ literal => .ofWord literal) Move.word) (c :: rest) (Lexeme.word c rest) :=
  ⟨rest.dropWhile isWordChar, by simp [Lexeme.word],
    passes_token _ _ _ _ () (passes_word c rest) (List.cons_ne_nil _ _)⟩

theorem scans_hexadecimal (rest : List Char) :
    Scans (Move.token (fun _ _ => .hexInteger) Move.hexadecimal) ('0' :: 'x' :: rest) (Lexeme.hexadecimal rest) :=
  ⟨rest.dropWhile Char.isHexDigit, by simp [Lexeme.hexadecimal], passes_token _ _ _ _ ()
    (passes_two '0' 'x' _ _ _ () (passes_skipWhile_takeWhile Char.isHexDigit rest)) (List.cons_ne_nil _ _)⟩

theorem passes_items (body tail after : List Char) (h : Quoted.Items body)
    (htail : Passes (Move.loop Move.item) tail after ()) : Passes (Move.loop Move.item) (body ++ tail) after () := by
  induction h with
  | nil => exact htail
  | @plain c rest hquote hbackslash _ ih =>
    refine passes_loop_again _ [c] _ after (by simp) ?_ ih
    apply passes_current
    simp only [List.singleton_append, List.head?_cons, hquote, hbackslash, if_false]
    exact passes_return _ (fun _ => true) [c] _ () (passes_advance c _)
  | @escape c rest _ ih =>
    refine passes_loop_again _ ['\\', c] _ after (by simp) ?_ ih
    apply passes_current
    exact passes_two '\\' c _ [] _ true (passes_pure _ true)

theorem passes_closing (after : List Char) : Passes (Move.loop Move.item) ['"'] after () := by
  apply passes_loop_last
  apply passes_current
  exact passes_return _ (fun _ => false) ['"'] after () (passes_advance '"' after)

theorem passes_unclosed : Passes (Move.loop Move.item) [] [] () :=
  passes_loop_last _ _ _ (passes_current _ _ _ _ (passes_pure [] false))

theorem passes_dangling : Passes (Move.loop Move.item) ['\\'] [] () := by
  refine passes_loop_again _ ['\\'] [] [] (by simp) ?_ passes_unclosed
  apply passes_current
  -- The second step is made at the end of the text, and goes nowhere.
  exact passes_bind _ _ ['\\'] [] [] () true (passes_advance '\\' [])
    (passes_return _ (fun _ => true) [] [] () passes_advance_end)

theorem passes_span (rest : List Char) :
    ∃ after, rest = Quoted.span rest ++ after ∧ Passes (Move.loop Move.item) (Quoted.span rest) after () := by
  obtain ⟨body, hbody, h⟩ := Quoted.itemized rest
  rcases h with ⟨after, rfl⟩ | rfl | rfl
  · rw [Quoted.span_append _ _ hbody, Quoted.span_quote]
    exact ⟨after, by simp, passes_items body _ after hbody (passes_closing after)⟩
  · have hspan : Quoted.span rest = rest := by simpa [Quoted.span] using Quoted.span_append rest [] hbody
    rw [hspan]
    refine ⟨[], by simp, ?_⟩
    simpa using passes_items rest [] [] hbody passes_unclosed
  · rw [Quoted.span_append _ _ hbody]
    exact ⟨[], by simp [Quoted.span], passes_items body _ [] hbody passes_dangling⟩

theorem scans_quoted (rest : List Char) :
    Scans (Move.token (fun _ _ => .stringLiteral) Move.quoted) ('"' :: rest) (Lexeme.quoted rest) := by
  obtain ⟨after, hsplit, hspan⟩ := passes_span rest
  refine ⟨after, by rw [Lexeme.quoted, List.cons_append, ← hsplit], ?_⟩
  refine passes_token _ _ _ after () ?_ (by simp [Lexeme.quoted])
  exact passes_bind _ _ ['"'] _ after () () (passes_advance '"' _) hspan

/-! ### Numerals -/

theorem passes_digits (text : List Char) :
    Passes (do Move.skipWhile Char.isDigit; return true) (text.takeWhile Char.isDigit)
      (text.dropWhile Char.isDigit) true :=
  passes_return _ (fun _ => true) _ _ () (passes_skipWhile_takeWhile Char.isDigit text)

theorem passes_fraction (text : List Char) :
    Passes Move.fraction (Numeral.fractionOf text) (text.drop (Numeral.fractionOf text).length)
      (!(Numeral.fractionOf text).isEmpty) := by
  by_cases h : text.head? = some '.'
  · obtain ⟨rest, rfl⟩ := List.head?_eq_some_iff.mp h
    have hfraction : Numeral.fractionOf ('.' :: rest) = '.' :: rest.takeWhile Char.isDigit := by
      simp [Numeral.fractionOf]
    rw [hfraction, List.length_cons, List.drop_succ_cons, drop_length_takeWhile]
    apply passes_current
    exact passes_bind _ _ ['.'] _ _ () true (passes_advance '.' _) (passes_digits rest)
  · rw [(Numeral.fractionOf_eq_nil_iff text).mpr h]
    apply passes_current
    rw [List.nil_append, List.length_nil, List.drop_zero, if_neg h]
    exact passes_pure text false

theorem passes_exponent (text : List Char) :
    Passes Move.exponent (Numeral.exponentOf text) (text.drop (Numeral.exponentOf text).length)
      (!(Numeral.exponentOf text).isEmpty) := by
  by_cases h : Numeral.StartsExponent text
  · obtain ⟨letter, sign, rest, hletter, hsign, rfl⟩ := h
    rw [Numeral.exponentOf_cons _ _ _ hletter hsign]
    simp only [List.length_cons, List.drop_succ_cons, drop_length_takeWhile]
    apply passes_current
    apply passes_peek
    rw [if_pos (by simp [hletter, hsign, Numeral.isSign])]
    exact passes_two letter sign _ _ _ true (passes_digits rest)
  · rw [Numeral.exponentOf_of_not_starts text h]
    apply passes_current
    apply passes_peek
    rw [List.nil_append, List.length_nil, List.drop_zero, if_neg]
    · exact passes_pure text false
    · rcases text with _ | ⟨letter, _ | ⟨sign, rest⟩⟩
      · simp
      · simp
      · rw [Numeral.startsExponent_iff] at h
        simpa [Numeral.isSign] using h

theorem passes_parts (whole fraction exponent after : List Char) (hasFraction hasExponent : Bool)
    (hwhole : Passes (Move.skipWhile Char.isDigit) whole (fraction ++ (exponent ++ after)) ())
    (hfraction : Passes Move.fraction fraction (exponent ++ after) hasFraction)
    (hexponent : Passes Move.exponent exponent after hasExponent) :
    Passes Move.number (whole ++ (fraction ++ exponent)) after
      (if hasFraction || hasExponent then .float else .integer) := by
  refine passes_bind _ _ whole _ after () _ ?_ (passes_bind _ _ fraction exponent after hasFraction _ hfraction ?_)
  · rwa [List.append_assoc]
  · exact passes_return _ (fun b => if hasFraction || b then TokenKind.float else .integer) exponent after _ hexponent

theorem passes_number (text : List Char) :
    ∃ after, text = (Numeral.ofText text).chars ++ after ∧
      Passes Move.number (Numeral.ofText text).chars after (Numeral.ofText text).kind := by
  let afterWhole := text.dropWhile Char.isDigit
  let afterFraction := afterWhole.drop (Numeral.fractionOf afterWhole).length
  have hwhole : text.takeWhile Char.isDigit ++ afterWhole = text := List.takeWhile_append_dropWhile
  have hfraction : Numeral.fractionOf afterWhole ++ afterFraction = afterWhole :=
    List.prefix_iff_eq_append.mp (Numeral.isPrefix_fractionOf afterWhole)
  have hexponent := List.prefix_iff_eq_append.mp (Numeral.isPrefix_exponentOf afterFraction)
  have hkind : (Numeral.ofText text).kind =
      if !(Numeral.fractionOf afterWhole).isEmpty || !(Numeral.exponentOf afterFraction).isEmpty then
        .float else .integer := by
    simp only [Numeral.kind, Numeral.ofText, ← Bool.not_and, Bool.not_eq_true', ← Bool.not_eq_true, ite_not]
    rfl
  have hchars : (Numeral.ofText text).chars = text.takeWhile Char.isDigit ++
      (Numeral.fractionOf afterWhole ++ Numeral.exponentOf afterFraction) := List.append_assoc _ _ _
  refine ⟨afterFraction.drop (Numeral.exponentOf afterFraction).length, ?_, ?_⟩
  · rw [hchars, List.append_assoc, List.append_assoc, hexponent, hfraction, hwhole]
  · rw [hkind, hchars]
    apply passes_parts
    · rw [hexponent, hfraction]
      exact passes_skipWhile_takeWhile Char.isDigit text
    · rw [hexponent]
      exact passes_fraction afterWhole
    · exact passes_exponent afterFraction

/-! ### Any token -/

theorem scans_decimal (text : List Char) (hne : (Numeral.ofText text).chars ≠ []) :
    Scans (Move.token (fun kind _ => kind) Move.number) text (decimal text) := by
  obtain ⟨after, hsplit, hnumber⟩ := passes_number text
  exact ⟨after, hsplit, passes_token _ _ _ after _ hnumber hne⟩

theorem scans_datum (c : Char) (rest : List Char) (h : singleKind c = .illegal) :
    Scans (Move.tokenAt c rest.head?) (c :: rest) (ofCons c rest) := by
  unfold Move.tokenAt ofCons
  rw [if_neg (by simp [h])]
  split_ifs with hd hq hl hx hnumber
  · rw [hd]
    exact scans_sigilName rest
  · rw [hq]
    exact scans_quoted rest
  · exact scans_word c rest
  · rw [Bool.and_eq_true, decide_eq_true_eq, decide_eq_true_eq] at hx
    obtain ⟨rfl, hx⟩ := hx
    obtain ⟨more, rfl⟩ := List.head?_eq_some_iff.mp hx
    exact scans_hexadecimal more
  · exact scans_decimal (c :: rest) (Numeral.chars_ofText_ne_nil hnumber)
  · have hpair : c ≠ '=' ∧ c ≠ '!' ∧ c ≠ '<' ∧ c ≠ '>' := by
      refine ⟨?_, ?_, ?_, ?_⟩
      all_goals
        rintro rfl
        cases h
    rw [symbol_of_no_pair c rest (by simp [pairKind?, hpair]), h]
    exact scans_single .illegal c rest

theorem scans_tokenAt (c : Char) (rest : List Char) :
    Scans (Move.tokenAt c rest.head?) (c :: rest) (ofCons c rest) := by
  rcases singleKind_spelled c with h | ⟨hmem, htext⟩
  · exact scans_datum c rest h
  · have hsymbol := TokenKind.symbol_char _ (List.mem_append_left _ hmem) c (by simp [htext])
    obtain ⟨hd, hq, hl, hdigit, hdot, -⟩ := hsymbol
    rw [ofCons_symbol c rest hd hq hl hdigit (fun hpoint => hdot hpoint.1), Move.tokenAt, if_pos]
    · exact scans_symbol c rest
    · intro hillegal
      rw [hillegal] at hmem
      exact absurd hmem (by decide)

/-! ## Runs -/

theorem passes_nextToken_blank (blanks : List Char) (hb : Blank blanks) :
    Passes Move.nextToken blanks [] Token.eof := by
  have hend : Passes Move.tokenAhead [] [] Token.eof := passes_current _ [] [] _ (passes_pure [] Token.eof)
  have hnext := passes_bind (Move.skipWhile isBlank) (fun _ => Move.tokenAhead) blanks [] [] () Token.eof
    (passes_skipWhile isBlank blanks [] hb (not_startsWith_nil _)) hend
  rwa [List.append_nil] at hnext

theorem passes_nextToken_stands (blanks after : List Char) (lexeme : Lexeme) (hb : Blank blanks)
    (h : Stands lexeme after) : Passes Move.nextToken (blanks ++ lexeme.chars) after lexeme.token := by
  have hfirst := first?_of_stands lexeme after h
  have hstop := not_blank_spelled _ _ _ after h.1
  obtain ⟨c, more, hchars⟩ := List.exists_cons_of_ne_nil (spelled_ne_nil _ _ _ h.1)
  rw [hchars, List.cons_append, first?, Option.some.injEq] at hfirst
  obtain ⟨after', hsplit, htoken⟩ := scans_tokenAt c (more ++ after)
  rw [hfirst, hchars, List.cons_append, List.cons.injEq, List.append_cancel_left_eq] at hsplit
  obtain ⟨-, rfl⟩ := hsplit
  rw [hfirst] at htoken
  refine passes_bind (Move.skipWhile isBlank) (fun _ => Move.tokenAhead) blanks lexeme.chars after () lexeme.token
    (passes_skipWhile isBlank blanks _ hb hstop) ?_
  apply passes_current
  rw [hchars, List.cons_append, List.head?_cons]
  apply passes_peek
  rw [List.cons_append, List.getElem?_cons_succ, ← List.head?_eq_getElem?, ← hchars]
  exact htoken

open Course Scanner

theorem scanner_of_at (text : String) (front back : List Char) (course : Course) (h : At text front back course) :
    course.cursor.scanner = ⟨front.length, back⟩ := by
  rw [h.cursor_eq, Cursor.scanner_between]

theorem nextToken_at (text : String) (front back : List Char) (course : Course) (h : At text front back course) :
    ∃ final front' back', Move.nextToken course = some (course.cursor.scanner.nextToken.1, final) ∧
      At text front' back' final ∧ final.cursor.scanner = course.cursor.scanner.nextToken.2 := by
  have hscanner := scanner_of_at text front back course h
  rw [hscanner]
  rcases ahead_cases back with hblank | ⟨blanks, lexeme, after, rfl, hb, hstands⟩
  · obtain ⟨final, hnext, hfinal⟩ := passes_nextToken_blank back hblank text front course (by rwa [List.append_nil])
    refine ⟨final, front ++ back, [], ?_, hfinal, ?_⟩
    · rw [hnext, nextToken_blank _ hblank]
    · rw [scanner_of_at _ _ _ _ hfinal, nextToken_blank _ hblank, List.length_append]
  · obtain ⟨final, hnext, hfinal⟩ :=
      passes_nextToken_stands blanks after lexeme hb hstands text front course (by rwa [List.append_assoc])
    refine ⟨final, front ++ (blanks ++ lexeme.chars), after, ?_, hfinal, ?_⟩
    · rw [hnext, nextToken_stands _ blanks after lexeme rfl hb hstands]
    · rw [scanner_of_at _ _ _ _ hfinal, nextToken_stands _ blanks after lexeme rfl hb hstands]
      simp only [List.length_append, Nat.add_assoc]

theorem tokens_at (text : String) (n : Nat) (front back : List Char) (course : Course)
    (h : At text front back course) :
    ∃ final front' back',
      Move.tokens n course =
        some ((List.range n).map fun k => (course.cursor.scanner.afterTokens k).nextToken.1, final) ∧
      At text front' back' final ∧ final.cursor.scanner = course.cursor.scanner.afterTokens n := by
  induction n generalizing front back course with
  | zero => exact ⟨course, front, back, rfl, h, rfl⟩
  | succ n ih =>
    obtain ⟨middle, front', back', hnext, hmiddle, hplace⟩ := nextToken_at text front back course h
    obtain ⟨final, front'', back'', hmore, hfinal, hplace'⟩ := ih front' back' middle hmiddle
    refine ⟨final, front'', back'', ?_, hfinal, ?_⟩
    · rw [Move.tokens, Move.bind_eq, hnext, Option.bind_some, Move.bind_eq, hmore, List.range_succ_eq_map,
        List.map_cons, List.map_map, hplace]
      simp only [Function.comp_def, Nat.succ_eq_add_one, afterTokens_succ]
      rfl
    · rw [hplace', hplace, afterTokens_succ]

theorem nextToken_end (course : Course) (h : course.cursor.current = none) :
    Move.nextToken course = some (Token.eof, course) := by
  have hround : Move.skipOne isBlank course = some (false, course) := by
    rw [Move.skipOne, Move.current_bind, h]
    rfl
  have hskip : Move.skipWhile isBlank course = some ((), course) := by rw [Move.skipWhile, Move.loop, hround]
  rw [Move.nextToken, Move.bind_eq, hskip, Option.bind_some, Move.tokenAhead, Move.current_bind, h]
  rfl

/-- However many tokens are asked for, the cursor gives those of the scanner and comes to the same place, and whatever
else is asked of the scanner leads to a place of that sort. On the way no slice is out of bounds, no loop stands still,
and the fields of the cursor agree after each single step. At the end of the text the cursor stays as it is. -/
theorem tokens_safe (text : String) :
    (∀ n, ∃ course,
      Move.tokens n (.ofText text) =
        some ((List.range n).map fun k => ((Scanner.ofText text).afterTokens k).nextToken.1, course) ∧
      course.Safe text ∧ course.cursor.scanner = (Scanner.ofText text).afterTokens n ∧
      (course.cursor.position = text.length → Move.nextToken course = some (Token.eof, course))) ∧
    ∀ requests : List Request, ∃ n,
      ((Scanner.ofText text).answerAll requests).2 = (Scanner.ofText text).afterTokens n := by
  constructor
  · intro n
    have hstart := at_ofText text
    obtain ⟨course, front, back, htokens, hat, hplace⟩ := tokens_at text n [] text.toList (.ofText text) hstart
    have hscanner : (Course.ofText text).cursor.scanner = Scanner.ofText text :=
      scanner_of_at text [] text.toList _ hstart
    rw [hscanner] at htokens hplace
    refine ⟨course, htokens, hat.safe, hplace, fun hend => nextToken_end course ?_⟩
    obtain ⟨hsound, hchars, -⟩ := hat.safe.sound course.cursor List.mem_cons_self
    rw [hsound.current_eq_none_iff, hchars, String.length_toList, hend]
  · intro requests
    obtain ⟨n, hplace, -⟩ := answerAll_taken (Scanner.ofText text) requests
    exact ⟨n, hplace⟩

theorem tokens_safe_dangling :
    ∃ course, Move.tokens 2 (.ofText "x\"\\") = some ([⟨.identifier, "x"⟩, ⟨.stringLiteral, "\"\\"⟩], course) ∧
      course.Safe "x\"\\" ∧ course.cursor.position = "x\"\\".length ∧
      Move.nextToken course = some (Token.eof, course) := by
  obtain ⟨course, htokens, hsafe, hplace, hend⟩ := (tokens_safe "x\"\\").1 2
  have hposition : course.cursor.position = "x\"\\".length :=
    (congrArg Scanner.position hplace).trans (by decide +kernel)
  refine ⟨course, htokens.trans ?_, hsafe, hposition, hend hposition⟩
  have hscanned : ((List.range 2).map fun k => ((Scanner.ofText "x\"\\").afterTokens k).nextToken.1) =
      [⟨.identifier, "x"⟩, ⟨.stringLiteral, "\"\\"⟩] := by decide +kernel
  rw [hscanned]

example :
    (Move.tokens 3 (.ofText "0x .5e+")).map Prod.fst =
      some [⟨.hexInteger, "0x"⟩, ⟨.float, ".5e+"⟩, Token.eof] := by
  decide +kernel

end Mel
