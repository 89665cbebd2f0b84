import Mel.Proofs.Scanner.Pull

/-!
# Places of tokens

Tokens are laid along their text with nothing but blanks left out between them. So a text and its tokens say where
each token ends, and what is behind it. A scanner that has just given a token stands there (`getElem?_placed`), and
has that ahead (`behind_afterTokens`).
-/

namespace Mel

/-! ## Tokens along a text -/

/-- A token, and how many characters the text has up to its end. -/
structure Placed where
  token : Token
  stop : Nat
  deriving DecidableEq

/-- Each token leaves out the blanks before it, and then takes as many characters as its literal has. The first
one comes behind `start` characters. -/
def lay : List Token → Nat → List Char → List Placed
  | [], _, _ => []
  | token :: more, start, text =>
    let stop := start + (text.takeWhile isBlank).length + token.literal.length
    ⟨token, stop⟩ :: lay more stop ((text.dropWhile isBlank).drop token.literal.length)

def placed (text : String) : List Placed := lay (scan text).dropLast 0 text.toList

/-- The tokens stand at the start of the text, one after another, with nothing but blanks before each of them. What
is left begins right behind the last one. -/
inductive Behind : List Char → List Token → List Char → Prop where
  | start (left : List Char) : Behind left [] left
  | token {blanks after left : List Char} {token : Token} {more : List Token} : Blank blanks →
      Behind after more left → Behind (blanks ++ (token.literal.toList ++ after)) (token :: more) left

theorem behind_unique (text : List Char) (tokens : List Token) (left left' : List Char) (h : Behind text tokens left)
    (h' : Behind text tokens left') (hformed : ∀ token ∈ tokens, token.Formed) : left = left' := by
  induction h with
  | start =>
    cases h'
    rfl
  | @token blanks after left token more hb _ ih =>
    rw [List.forall_mem_cons] at hformed
    obtain ⟨⟨before, hspelled⟩, hmore⟩ := hformed
    generalize hsplit : blanks ++ (token.literal.toList ++ after) = text at h'
    cases h' with
    | @token blanks' after' _ _ _ hb' h' =>
      have hstop := not_blank_spelled _ _ _ after hspelled
      have hstop' := not_blank_spelled _ _ _ after' hspelled
      -- No token starts with a blank, so both gaps are all the blanks there are.
      have hdrop := congrArg (List.dropWhile isBlank) hsplit
      rw [dropWhile_append_eq _ _ _ hb hstop, dropWhile_append_eq _ _ _ hb' hstop',
        List.append_cancel_left_eq] at hdrop
      subst hdrop
      exact ih h' hmore

theorem map_token_lay (tokens : List Token) (start : Nat) (text : List Char) :
    (lay tokens start text).map Placed.token = tokens := by
  induction tokens generalizing start text with
  | nil => rfl
  | cons token more ih => rw [lay, List.map_cons, ih]

theorem scan_placed (text : String) : scan text = (placed text).map Placed.token ++ [Token.eof] := by
  rw [placed, map_token_lay, scan, List.dropLast_concat]

/-! ## Where a scanner stands -/

namespace Scanner

def placed (scanner : Scanner) : List Placed := lay scanner.ahead scanner.position scanner.rest

theorem placed_ofText (text : String) : (ofText text).placed = Mel.placed text := by
  rw [placed, ahead_ofText]
  rfl

theorem placed_of_blank (scanner : Scanner) (h : Blank scanner.rest) : scanner.placed = [] := by
  rw [placed, ahead_of_reads scanner [] (.blank h), lay]

theorem placed_of_stands (scanner : Scanner) (blanks after : List Char) (lexeme : Lexeme)
    (hrest : scanner.rest = blanks ++ (lexeme.chars ++ after)) (hb : Blank blanks) (h : lexeme.Stands after) :
    scanner.placed =
      ⟨lexeme.token, scanner.position + blanks.length + lexeme.chars.length⟩ ::
        placed ⟨scanner.position + blanks.length + lexeme.chars.length, after⟩ := by
  have hstop := not_blank_spelled _ _ _ after h.1
  rw [placed, ahead_of_stands scanner blanks after lexeme _ hrest hb h, hrest, lay,
    takeWhile_append_eq _ _ _ hb hstop, dropWhile_append_eq _ _ _ hb hstop, ← String.length_toList, toList_literal,
    List.drop_left]
  rfl

theorem placed_cases (scanner : Scanner) :
    (scanner.ahead = [] ∧ scanner.placed = []) ∨
      ∃ token after, scanner.nextToken = (token, after) ∧ scanner.ahead = token :: after.ahead ∧
        scanner.placed = ⟨token, after.position⟩ :: after.placed := by
  rcases ahead_cases scanner.rest with hblank | ⟨blanks, lexeme, after, hrest, hb, hstands⟩
  · exact .inl ⟨ahead_of_reads scanner [] (.blank hblank), placed_of_blank scanner hblank⟩
  · exact .inr ⟨_, _, nextToken_stands scanner blanks after lexeme hrest hb hstands,
      ahead_of_stands scanner blanks after lexeme _ hrest hb hstands,
      placed_of_stands scanner blanks after lexeme hrest hb hstands⟩

theorem getElem?_placed (scanner : Scanner) (n : Nat) :
    scanner.placed[n]? = scanner.ahead[n]?.map fun token => ⟨token, (scanner.afterTokens (n + 1)).position⟩ := by
  induction n generalizing scanner with
  | zero =>
    rcases placed_cases scanner with ⟨hahead, hplaced⟩ | ⟨token, after, hnext, hahead, hplaced⟩
    · rw [hahead, hplaced]
      rfl
    · rw [hahead, hplaced, afterTokens_succ, hnext]
      rfl
  | succ n ih =>
    rcases placed_cases scanner with ⟨hahead, hplaced⟩ | ⟨token, after, hnext, hahead, hplaced⟩
    · rw [hahead, hplaced]
      rfl
    · rw [hahead, hplaced, List.getElem?_cons_succ, List.getElem?_cons_succ, ih, afterTokens_succ scanner, hnext]

theorem behind_afterTokens (scanner : Scanner) (n : Nat) (h : n ≤ scanner.ahead.length) :
    Behind scanner.rest (scanner.ahead.take n) (scanner.afterTokens n).rest := by
  induction n generalizing scanner with
  | zero => exact .start _
  | succ n ih =>
    rcases ahead_cases scanner.rest with hblank | ⟨blanks, lexeme, after, hrest, hb, hstands⟩
    · rw [ahead_of_reads scanner [] (.blank hblank)] at h
      cases h
    · have hahead := ahead_of_stands scanner blanks after lexeme
        (scanner.position + blanks.length + lexeme.chars.length) hrest hb hstands
      rw [hahead, List.length_cons, Nat.succ_le_succ_iff] at h
      rw [afterTokens_succ, nextToken_stands scanner blanks after lexeme hrest hb hstands, hahead, hrest]
      have hbehind : Behind (blanks ++ (lexeme.token.literal.toList ++ after)) (lexeme.token :: _) _ :=
        .token hb (ih _ h)
      rwa [toList_literal] at hbehind

theorem exists_front (scanner : Scanner) (p : Placed) (h : p ∈ scanner.placed) :
    ∃ front back, scanner.rest = front ++ (p.token.literal.toList ++ back) ∧ p.token.literal.toList ≠ [] ∧
      p.stop = scanner.position + front.length + p.token.literal.length := by
  obtain ⟨tokens, hreads⟩ := exists_reads scanner.rest
  generalize hrest : scanner.rest = text at hreads ⊢
  induction hreads generalizing scanner with
  | blank hb =>
    rw [placed_of_blank scanner (hrest ▸ hb)] at h
    cases h
  | @token blanks after lexeme _ hb hstands _ ih =>
    rw [placed_of_stands scanner blanks after lexeme hrest hb hstands] at h
    rcases List.mem_cons.mp h with rfl | h
    · refine ⟨blanks, after, ?_, ?_, ?_⟩
      · rw [toList_literal]
      · rw [toList_literal]
        exact spelled_ne_nil _ _ _ hstands.1
      · rw [← String.length_toList, toList_literal]
    · obtain ⟨front, back, hafter, hne, hstop⟩ := ih _ h rfl
      refine ⟨blanks ++ (lexeme.chars ++ front), back, by simp [hafter], hne, ?_⟩
      rw [hstop]
      simp only [List.length_append]
      omega

theorem position_lt_stop (scanner : Scanner) (p : Placed) (h : p ∈ scanner.placed) :
    scanner.position < p.stop := by
  obtain ⟨front, back, -, hne, hstop⟩ := exists_front scanner p h
  have hpos := List.length_pos_iff.mpr hne
  rw [String.length_toList] at hpos
  omega

end Scanner

end Mel
