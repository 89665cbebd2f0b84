import Mel.Proofs.Lexeme.First
import Mel.Scanner.Basic

/-!
# One step of the scanner

A scanner skips blanks and takes the longest lexeme ahead. `nextToken_longest` says so for every place
that a scanner can get to in a text.
-/

namespace Mel.Scanner

open Lexeme

/-! ## Moving on -/

theorem forward_append (scanner : Scanner) (front back : List Char) (h : scanner.rest = front ++ back) :
    scanner.forward front.length = ⟨scanner.position + front.length, back⟩ := by
  induction front generalizing scanner with
  | nil =>
    obtain ⟨position, rest⟩ := scanner
    obtain rfl : rest = back := h
    rfl
  | cons c front ih =>
    have hadvance : scanner.advance = ⟨scanner.position + 1, front ++ back⟩ := by simp [advance, h]
    rw [List.length_cons, forward, ih scanner.advance (by rw [hadvance]), hadvance]
    simp only [Scanner.mk.injEq, and_true]
    omega

theorem skipBlanks_append (scanner : Scanner) (blanks text : List Char)
    (h : scanner.rest = blanks ++ text) (hb : Blank blanks) (hstop : ¬ startsWith isBlank text) :
    scanner.skipBlanks = ⟨scanner.position + blanks.length, text⟩ := by
  have htake : scanner.rest.takeWhile isBlank = blanks := by rw [h, takeWhile_append_eq _ _ _ hb hstop]
  rw [skipBlanks, htake, forward_append _ _ _ h]

/-! ## The two outcomes -/

theorem nextToken_blank (scanner : Scanner) (h : Blank scanner.rest) :
    scanner.nextToken = (.eof, ⟨scanner.position + scanner.rest.length, []⟩) := by
  have hskip := skipBlanks_append scanner scanner.rest [] (by simp) h (not_startsWith_nil _)
  simp [nextToken, hskip, first?]

theorem nextToken_stands (scanner : Scanner) (blanks after : List Char) (lexeme : Lexeme)
    (hrest : scanner.rest = blanks ++ (lexeme.chars ++ after)) (hb : Blank blanks)
    (h : Stands lexeme after) :
    scanner.nextToken =
      (lexeme.token, ⟨scanner.position + blanks.length + lexeme.chars.length, after⟩) := by
  have hskip := skipBlanks_append scanner _ _ hrest hb (not_blank_spelled _ _ _ _ h.1)
  have hforward := forward_append scanner.skipBlanks lexeme.chars after (by rw [hskip])
  simp only [nextToken, hskip, first?_of_stands lexeme after h]
  rw [hskip] at hforward
  rw [hforward]

theorem ahead_cases (text : List Char) :
    Blank text ∨ ∃ blanks lexeme after,
      text = blanks ++ (lexeme.chars ++ after) ∧ Blank blanks ∧ Stands lexeme after := by
  have hb : Blank (text.takeWhile isBlank) := fun _ hc => List.mem_takeWhile_imp hc
  have hsplit : text = text.takeWhile isBlank ++ text.dropWhile isBlank :=
    List.takeWhile_append_dropWhile.symm
  have hstop := not_startsWith_dropWhile isBlank text
  cases hfirst : first? (text.dropWhile isBlank) with
  | none =>
    have hnil : text.dropWhile isBlank = [] := by
      cases hdrop : text.dropWhile isBlank with
      | nil => rfl
      | cons c rest => simp [hdrop, first?] at hfirst
    rw [hnil, List.append_nil] at hsplit
    exact .inl (hsplit ▸ hb)
  | some lexeme =>
    obtain ⟨after, hafter, hstands⟩ := (first?_eq_some_iff _ _ hstop).mp hfirst
    exact .inr ⟨_, lexeme, after, hafter ▸ hsplit, hb, hstands⟩

/-! ## Places in a text -/

/-- The scanner is in the text: what is ahead of it is what the text has from its position on. -/
def In (text : List Char) (scanner : Scanner) : Prop :=
  scanner.position ≤ text.length ∧ scanner.rest = text.drop scanner.position

theorem in_ofText (text : String) : In text.toList (ofText text) := ⟨Nat.zero_le _, rfl⟩

theorem in_forward (text front back : List Char) (scanner : Scanner) (h : In text scanner)
    (hrest : scanner.rest = front ++ back) : In text ⟨scanner.position + front.length, back⟩ := by
  obtain ⟨hposition, hdrop⟩ := h
  have hlength := congrArg List.length (hdrop.symm.trans hrest)
  simp only [List.length_drop, List.length_append] at hlength
  refine ⟨by simp only; omega, ?_⟩
  simp only
  rw [← List.drop_drop, ← hdrop, hrest, List.drop_left]

theorem in_nextToken (text : List Char) (scanner : Scanner) (h : In text scanner) :
    In text scanner.nextToken.2 := by
  rcases ahead_cases scanner.rest with hblank | ⟨blanks, lexeme, after, hrest, hb, hstands⟩
  · rw [nextToken_blank scanner hblank]
    exact in_forward text _ [] scanner h (by simp)
  · rw [nextToken_stands scanner blanks after lexeme hrest hb hstands]
    have hin := in_forward text (blanks ++ lexeme.chars) after scanner h (by rw [hrest, List.append_assoc])
    rwa [List.length_append, ← Nat.add_assoc] at hin

def afterTokens (scanner : Scanner) : Nat → Scanner
  | 0 => scanner
  | n + 1 => (scanner.afterTokens n).nextToken.2

theorem in_afterTokens (text : List Char) (scanner : Scanner) (h : In text scanner) (n : Nat) :
    In text (scanner.afterTokens n) := by
  induction n with
  | zero => exact h
  | succ n ih => exact in_nextToken text _ ih

/-! ## Maximal munch -/

/-- Wherever a scanner gets to in a text: if only blanks are ahead, it answers with the end of the text and
stands at that end. Otherwise it answers with the longest lexeme behind the blanks, and stands behind it. -/
theorem nextToken_longest (text : String) (n : Nat) :
    let scanner := (ofText text).afterTokens n
    let blanks := scanner.rest.takeWhile isBlank
    let ahead := scanner.rest.dropWhile isBlank
    In text.toList scanner ∧
      ((ahead = [] ∧ scanner.nextToken = (.eof, ⟨text.length, []⟩)) ∨
        ∃ kind chars after, Longest ahead kind chars after ∧
          scanner.nextToken = (⟨kind, String.ofList chars⟩,
            ⟨scanner.position + blanks.length + chars.length, after⟩)) := by
  intro scanner blanks ahead
  have hin : In text.toList scanner := in_afterTokens _ _ (in_ofText text) n
  refine ⟨hin, ?_⟩
  rcases ahead_cases scanner.rest with hblank | ⟨run, lexeme, after, hrest, hrun, hstands⟩
  · left
    have hahead : ahead = [] := by
      have := dropWhile_append_eq isBlank scanner.rest [] hblank (not_startsWith_nil _)
      rwa [List.append_nil] at this
    have hend : scanner.position + scanner.rest.length = text.length := by
      have hlength := congrArg List.length hin.2
      have hle := hin.1
      rw [List.length_drop, String.length_toList] at hlength
      rw [String.length_toList] at hle
      omega
    refine ⟨hahead, ?_⟩
    rw [nextToken_blank scanner hblank, hend]
  · right
    have hstop := not_blank_spelled _ _ _ after hstands.1
    have hahead : ahead = lexeme.chars ++ after := by
      simp only [ahead, hrest, dropWhile_append_eq _ _ _ hrun hstop]
    have hblanks : blanks = run := by simp only [blanks, hrest, takeWhile_append_eq _ _ _ hrun hstop]
    refine ⟨lexeme.kind, lexeme.chars, after, ?_, ?_⟩
    · rw [hahead]
      exact longest_of_stands lexeme after hstands
    · rw [nextToken_stands scanner run after lexeme hrest hrun hstands, hblanks]
      rfl

end Mel.Scanner
