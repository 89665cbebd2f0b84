import Mel.Proofs.Scan.Reads

/-!
# Pulling tokens

However tokens are taken off a scanner, they come in one order. Each way to take them is read off the row of
tokens ahead, and the scanner is then where it would be if it had been asked for token after token.
-/

namespace Mel.Scanner

/-! ## The tokens ahead -/

/-- The tokens that are left, without the one for the end. -/
def ahead (scanner : Scanner) : List Token := scanner.drain.1

theorem ahead_ofText (text : String) : (ofText text).ahead = (scan text).dropLast := by
  rw [scan, List.dropLast_concat]
  rfl

theorem ahead_of_reads (scanner : Scanner) (tokens : List Token) (h : Reads scanner.rest tokens) :
    scanner.ahead = tokens := congrArg Prod.fst (drain_reads scanner tokens h)

theorem ahead_congr (scanner other : Scanner) (h : scanner.rest = other.rest) : scanner.ahead = other.ahead := by
  obtain ⟨tokens, hreads⟩ := exists_reads scanner.rest
  rw [ahead_of_reads scanner tokens hreads, ahead_of_reads other tokens (h ▸ hreads)]

theorem ahead_of_stands (scanner : Scanner) (blanks after : List Char) (lexeme : Lexeme) (position : Nat)
    (hrest : scanner.rest = blanks ++ (lexeme.chars ++ after)) (hb : Blank blanks) (h : lexeme.Stands after) :
    scanner.ahead = lexeme.token :: ahead ⟨position, after⟩ := by
  obtain ⟨tokens, hreads⟩ := exists_reads after
  rw [ahead_of_reads scanner (lexeme.token :: tokens) (hrest ▸ .token hb h hreads),
    ahead_of_reads ⟨position, after⟩ tokens hreads]

theorem nextToken_cases (scanner : Scanner) :
    (scanner.ahead = [] ∧ scanner.nextToken = (Token.eof, ⟨scanner.position + scanner.rest.length, []⟩)) ∨
      ∃ token after, scanner.nextToken = (token, after) ∧ token.isEof = false ∧
        scanner.ahead = token :: after.ahead := by
  rcases ahead_cases scanner.rest with hblank | ⟨blanks, lexeme, after, hrest, hb, hstands⟩
  · exact .inl ⟨ahead_of_reads scanner [] (.blank hblank), nextToken_blank scanner hblank⟩
  · right
    have hnext := nextToken_stands scanner blanks after lexeme hrest hb hstands
    have heof := isEof_of_formed _ (formed_of_stands lexeme after hstands)
    exact ⟨_, _, hnext, heof, ahead_of_stands scanner blanks after lexeme _ hrest hb hstands⟩

theorem ahead_end (scanner : Scanner) (h : scanner.rest = []) : scanner.ahead = [] := by
  apply ahead_of_reads
  rw [h]
  exact reads_nil

/-! ## Token after token -/

theorem afterTokens_succ (scanner : Scanner) (n : Nat) :
    scanner.afterTokens (n + 1) = scanner.nextToken.2.afterTokens n := by
  induction n with
  | zero => rfl
  | succ n ih => rw [afterTokens, ih, afterTokens]

theorem afterTokens_add (scanner : Scanner) (m n : Nat) :
    scanner.afterTokens (m + n) = (scanner.afterTokens m).afterTokens n := by
  induction n with
  | zero => rfl
  | succ n ih => rw [← Nat.add_assoc, afterTokens, ih, afterTokens]

theorem afterTokens_end (scanner : Scanner) (h : scanner.rest = []) (n : Nat) :
    scanner.afterTokens n = scanner := by
  have hnext : scanner.nextToken.2 = scanner := by
    obtain ⟨position, rest⟩ := scanner
    obtain rfl : rest = [] := h
    rw [nextToken_blank _ blank_nil]
    rfl
  induction n with
  | zero => rfl
  | succ n ih => rw [afterTokens_succ, hnext, ih]

theorem ahead_afterTokens (scanner : Scanner) (n : Nat) :
    (scanner.afterTokens n).ahead = scanner.ahead.drop n := by
  induction n generalizing scanner with
  | zero => rfl
  | succ n ih =>
    rw [afterTokens_succ, ih]
    rcases nextToken_cases scanner with ⟨hnil, hnext⟩ | ⟨token, after, hnext, -, hcons⟩
    · rw [hnext, ahead_end _ rfl, hnil, List.drop_nil, List.drop_nil]
    · rw [hnext, hcons, List.drop_succ_cons]

theorem rest_afterTokens (scanner : Scanner) (n : Nat) (h : scanner.ahead.length < n) :
    (scanner.afterTokens n).rest = [] := by
  obtain ⟨m, rfl⟩ : ∃ m, n = m + 1 := ⟨n - 1, by omega⟩
  have hnil : (scanner.afterTokens m).ahead = [] := by
    rw [ahead_afterTokens, List.drop_eq_nil_iff]
    omega
  rcases nextToken_cases (scanner.afterTokens m) with ⟨-, hnext⟩ | ⟨token, after, -, -, hcons⟩
  · rw [afterTokens, hnext]
  · rw [hnil] at hcons
    cases hcons

theorem afterTokens_of_lt (scanner : Scanner) (m n : Nat) (h : scanner.ahead.length < m) (hle : m ≤ n) :
    scanner.afterTokens n = scanner.afterTokens m := by
  obtain ⟨k, rfl⟩ := Nat.exists_eq_add_of_le hle
  rw [afterTokens_add, afterTokens_end _ (rest_afterTokens scanner m h)]

theorem rest_afterTokens_congr (scanner other : Scanner) (h : scanner.rest = other.rest) (n : Nat) :
    (scanner.afterTokens n).rest = (other.afterTokens n).rest := by
  induction n with
  | zero => exact h
  | succ n ih =>
    rw [afterTokens, afterTokens]
    rcases ahead_cases (scanner.afterTokens n).rest with hblank | ⟨blanks, lexeme, after, hrest, hb, hstands⟩
    · rw [nextToken_blank _ hblank, nextToken_blank _ (ih ▸ hblank)]
    · rw [nextToken_stands _ blanks after lexeme hrest hb hstands,
        nextToken_stands _ blanks after lexeme (ih ▸ hrest) hb hstands]

/-! ## The ways to pull -/

theorem nextToken_eq (scanner : Scanner) :
    scanner.nextToken = (scanner.ahead.head?.getD Token.eof, scanner.afterTokens 1) := by
  rcases nextToken_cases scanner with ⟨hnil, hnext⟩ | ⟨token, after, hnext, -, hcons⟩
  · simp [afterTokens, hnext, hnil]
  · simp [afterTokens, hnext, hcons]

theorem next_eq (scanner : Scanner) : scanner.next = (scanner.ahead.head?, scanner.afterTokens 1) := by
  rcases nextToken_cases scanner with ⟨hnil, hnext⟩ | ⟨token, after, hnext, heof, hcons⟩
  · simp [next, afterTokens, hnext, hnil, Token.isEof, Token.eof]
  · simp [next, afterTokens, hnext, heof, hcons]

theorem nth_eq (scanner : Scanner) (n : Nat) :
    scanner.nth n = ((scanner.ahead.drop n).head?, scanner.afterTokens (n + 1)) := by
  induction n generalizing scanner with
  | zero => rw [nth, next_eq, List.drop_zero]
  | succ n ih =>
    rw [nth, next_eq]
    cases hrow : scanner.ahead with
    | nil =>
      -- The end was met with the first token, and the scanner asks for no other.
      rw [afterTokens_of_lt scanner 1 (n + 1 + 1) (by simp [hrow]) (by omega)]
      simp
    | cons token more =>
      simp only [List.head?_cons, ih, ahead_afterTokens, hrow, List.drop_drop, ← afterTokens_add]
      rw [Nat.add_comm 1 n, Nat.add_comm 1 (n + 1)]

theorem take_eq (scanner : Scanner) (n : Nat) :
    scanner.take n = (scanner.ahead.take n, scanner.afterTokens n) := by
  induction n generalizing scanner with
  | zero => rfl
  | succ n ih =>
    rw [take, next_eq]
    cases hrow : scanner.ahead with
    | nil =>
      rw [afterTokens_of_lt scanner 1 (n + 1) (by simp [hrow]) (by omega)]
      simp
    | cons token more =>
      simp only [List.head?_cons, ih, ahead_afterTokens, hrow, List.drop_succ_cons, List.drop_zero,
        List.take_succ_cons, ← afterTokens_add]
      rw [Nat.add_comm 1 n]

theorem drain_eq (scanner : Scanner) :
    scanner.drain = (scanner.ahead, scanner.afterTokens (scanner.ahead.length + 1)) := by
  generalize hrow : scanner.ahead = row
  induction row generalizing scanner with
  | nil =>
    -- That no token is left shows only when one more is asked for.
    apply drain_none
    rw [next_eq, hrow]
    rfl
  | cons token more ih =>
    have hmore : (scanner.afterTokens 1).ahead = more := by rw [ahead_afterTokens, hrow, List.drop_one, List.tail_cons]
    rw [drain_some scanner (scanner.afterTokens 1) token (by rw [next_eq, hrow]; rfl), ih _ hmore,
      ← afterTokens_add, List.length_cons, Nat.add_comm 1]

end Mel.Scanner
