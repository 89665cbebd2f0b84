import Mathlib.Logic.Basic
import Mel.Proofs.Quoted.Body
import Mel.Proofs.Scan.Cut
import Mel.Proofs.Scan.Layout

/-!
# Quoted texts in a text

Where the scanner ends a quoted text, there `Quoted.body` finds its closing quote and `Quoted.unescape` the
end of its last item (`scan_stringLiteral`). So every value can be written between quotes and is read back
wherever it stands (`scan_spelled`).
-/

namespace Mel

open Lexeme Quoted

/-! ## The token of a quoted text -/

theorem reads_of_scan (code : String) (before after : List Token) (token : Token)
    (h : scan code = before ++ token :: after) (heof : token.isEof = false) :
    ∃ more, after = more ++ [Token.eof] ∧ Reads code.toList (before ++ token :: more) := by
  obtain ⟨tokens, hreads, hscan⟩ := reads_scan code
  rw [h] at hscan
  rcases List.eq_nil_or_concat after with rfl | ⟨more, last, rfl⟩
  · obtain ⟨-, hlast⟩ := List.append_inj' hscan rfl
    obtain rfl : token = Token.eof := by simpa using hlast
    cases heof
  · rw [List.concat_eq_append, ← List.cons_append, ← List.append_assoc] at hscan
    obtain ⟨rfl, hlast⟩ := List.append_inj' hscan rfl
    exact ⟨more, by rw [List.concat_eq_append, hlast], hreads⟩

theorem row_of_spelled (kind : TokenKind) (chars after : List Char) (h : Spelled kind chars after)
    (hkind : kind = .stringLiteral) :
    ∃ row, chars = '"' :: (rowChars row ++ ['"']) ∨
      (after = [] ∧ ∃ left, (left = [] ∨ left = ['\\']) ∧ chars = '"' :: (rowChars row ++ left)) := by
  cases h with
  | closed hbody =>
    obtain ⟨row, rfl⟩ := exists_row _ hbody
    exact ⟨row, .inl rfl⟩
  | unclosed hbody =>
    obtain ⟨row, rfl⟩ := exists_row _ hbody
    exact ⟨row, .inr ⟨rfl, [], .inl rfl, by rw [List.append_nil]⟩⟩
  | dangling hbody =>
    obtain ⟨row, rfl⟩ := exists_row _ hbody
    exact ⟨row, .inr ⟨rfl, ['\\'], .inr rfl, rfl⟩⟩
  | keyword hk | pair hk | single hk =>
    subst hkind
    exact absurd hk (by decide)
  | _ => cases hkind

theorem quote_append_ne (body : String) : "\"" ++ body ++ "\"" ≠ "\"" ++ body := by
  intro h
  simpa using congrArg String.length h

/-- A quoted text has its closing quote, and then its body is whole items. Or it has none, and then it is the
last token and reaches the end of the text, where a backslash may be left over. -/
theorem scan_stringLiteral (code : String) (before after : List Token) (token : Token)
    (h : scan code = before ++ token :: after) (hkind : token.kind = .stringLiteral) :
    ∃ row left, Reading (body token.literal) row left ∧
      Xor (token.literal = "\"" ++ body token.literal ++ "\"" ∧ left = [])
        (token.literal = "\"" ++ body token.literal ∧ after = [Token.eof] ∧
          ∃ front, code = front ++ token.literal) := by
  have heof : token.isEof = false := by simp [Token.isEof, hkind]
  obtain ⟨more, rfl, hreads⟩ := reads_of_scan code before after token h heof
  obtain ⟨front, rest, hcode, ⟨hspelled, -⟩, hrest⟩ := stands_of_reads _ _ _ _ hreads
  obtain ⟨row, hchars | ⟨rfl, left, hleft, hchars⟩⟩ := row_of_spelled _ _ _ hspelled hkind
  · obtain ⟨hreading, hliteral⟩ := reading_closed token.literal row hchars
    refine ⟨row, [], hreading, .inl ⟨⟨hliteral, rfl⟩, ?_⟩⟩
    rintro ⟨hopen, -⟩
    exact quote_append_ne _ (hliteral.symm.trans hopen)
  · obtain ⟨hreading, hliteral⟩ := reading_open token.literal row left hleft hchars
    obtain rfl := reads_unique _ _ _ hrest reads_nil
    refine ⟨row, left, hreading, .inr ⟨⟨hliteral, rfl, String.ofList front, ?_⟩, ?_⟩⟩
    · apply String.toList_injective
      rw [hcode, String.toList_append, String.toList_ofList, List.append_nil]
    · rintro ⟨hclosed, -⟩
      exact quote_append_ne _ (hclosed.symm.trans hliteral)

theorem scan_stringLiteral_dangling :
    scan "x \"a\\\"\\" = [⟨.identifier, "x"⟩] ++ ⟨.stringLiteral, "\"a\\\"\\"⟩ :: [Token.eof] ∧
      ∃ row left, Reading (body "\"a\\\"\\") row left ∧
        Xor ("\"a\\\"\\" = "\"" ++ body "\"a\\\"\\" ++ "\"" ∧ left = [])
          ("\"a\\\"\\" = "\"" ++ body "\"a\\\"\\" ∧ [Token.eof] = [Token.eof] ∧
            ∃ front, "x \"a\\\"\\" = front ++ "\"a\\\"\\") := by
  have hscan : scan "x \"a\\\"\\" =
      [⟨.identifier, "x"⟩] ++ ⟨.stringLiteral, "\"a\\\"\\"⟩ :: [Token.eof] := by decide +kernel
  exact ⟨hscan, scan_stringLiteral _ _ _ _ hscan rfl⟩

/-! ## A value written in the midst of a text -/

theorem reads_append_stopped (text more : List Char) (tokens moreTokens : List Token) (h : Reads text tokens)
    (hmore : Reads more moreTokens) (hopen : ∀ token ∈ tokens.getLast?, ¬ token.Unclosed)
    (hstop : Stopped more) (hsign : ¬ startsWith Numeral.isSign more) :
    Reads (text ++ more) (tokens ++ moreTokens) := by
  rw [reads_append_iff _ _ _ _ h hmore]
  constructor
  · rintro ⟨token, ⟨front, rfl⟩, -, hextends⟩
    have hnot := hopen token (by simp)
    refine not_extends_stopped _ _ _ ?_ hstop hextends
    intro hkind
    by_contra hclosed
    exact hnot ⟨hkind, hclosed⟩
  · rintro ⟨-, -, -, -, -, -, -, hjoins⟩
    exact hsign hjoins

theorem reads_closed_append (literal : String) (row : List Item)
    (h : literal.toList = '"' :: (rowChars row ++ ['"'])) (after : List Char) (tokens : List Token)
    (hreads : Reads after tokens) :
    Reads (literal.toList ++ after) (⟨.stringLiteral, literal⟩ :: tokens) := by
  have hitems := items_rowChars row
  refine reads_token_append ⟨.stringLiteral, literal⟩ _ _ ?_ ?_ hreads
  · refine ⟨after, ?_⟩
    rw [h]
    exact .closed hitems
  · rintro ⟨hopen, -⟩
    exact hopen ⟨_, hitems, h⟩

/-- Every value has a spelling, and each of its spellings is read back between quotes, whatever stands before
and behind them. Only a quoted text that is still open before them would take them in. -/
theorem scan_spelled (value : String) :
    (∃ spelled : String, Spells value.toList spelled.toList) ∧
      ∀ spelled : String, Spells value.toList spelled.toList →
        unescape (body ("\"" ++ spelled ++ "\"")) = value ∧
          ∀ a r : String, (∀ token ∈ (scan a).dropLast.getLast?, ¬ token.Unclosed) →
            scan (a ++ ("\"" ++ spelled ++ "\"") ++ r) =
              (scan a).dropLast ++ [⟨.stringLiteral, "\"" ++ spelled ++ "\""⟩] ++ scan r := by
  constructor
  · obtain ⟨spelled, h⟩ := exists_spells value.toList
    exact ⟨String.ofList spelled, by rwa [String.toList_ofList]⟩
  intro spelled h
  obtain ⟨row, hspelled, hvalue⟩ := row_of_spells _ _ h
  generalize hliteral : "\"" ++ spelled ++ "\"" = literal
  have hchars : literal.toList = '"' :: (rowChars row ++ ['"']) := by simp [← hliteral, hspelled]
  constructor
  · obtain ⟨hreading, -⟩ := reading_closed literal row hchars
    apply String.toList_injective
    rw [hreading.value, List.append_nil, hvalue]
  · intro a r hopen
    obtain ⟨tokens, htokens, hscan⟩ := reads_scan a
    obtain ⟨moreTokens, hmore, hscanMore⟩ := reads_scan r
    rw [hscan, List.dropLast_concat] at hopen ⊢
    have hquoted := reads_closed_append literal row hchars _ _ hmore
    have hreads := reads_append_stopped _ _ _ _ htokens hquoted hopen
      (by rw [hchars]; exact stopped_cons _ _ rfl) (by simp [hchars, startsWith, Numeral.isSign])
    rw [← List.append_assoc, ← String.toList_append, ← String.toList_append, reads_iff] at hreads
    rw [hreads, hscanMore]
    simp

theorem scan_spelled_tight :
    Spells "a\n\"\\".toList "a\\n\\\"\\\\".toList ∧
      unescape (body ("\"" ++ "a\\n\\\"\\\\" ++ "\"")) = "a\n\"\\" ∧
      scan ("1" ++ ("\"" ++ "a\\n\\\"\\\\" ++ "\"") ++ "e") =
        (scan "1").dropLast ++ [⟨.stringLiteral, "\"" ++ "a\\n\\\"\\\\" ++ "\""⟩] ++ scan "e" := by
  have hspells : Spells "a\n\"\\".toList "a\\n\\\"\\\\".toList :=
    .raw (by decide) (by decide) (.control (by decide)
      (.hidden (by decide) (by decide) (by decide) (.hidden (by decide) (by decide) (by decide) .nil)))
  have hscan : scan "1" = [⟨.integer, "1"⟩, Token.eof] := by decide +kernel
  obtain ⟨hvalue, hcontext⟩ := (scan_spelled "a\n\"\\").2 _ hspells
  refine ⟨hspells, hvalue, hcontext "1" "e" ?_⟩
  rw [hscan]
  rintro token htoken ⟨hkind, -⟩
  obtain rfl : ⟨.integer, "1"⟩ = token := by simpa using htoken
  cases hkind

end Mel
