import Mel.Proofs.Numeral.Value
import Mel.Proofs.Scan.Reads

/-!
# Integers in a text

The tokens with an integer value are the numerals among the tokens, as far as the type reaches. And a text with an
integer value is one token, a numeral (`scan_integer`).
-/

namespace Mel

open Numeral

/-! ## Numerals among the lexemes -/

def Radix.kind : Radix → TokenKind
  | .decimal => .integer
  | .hexadecimal => .hexInteger

theorem digits_of_spelled (radix : Radix) (kind : TokenKind) (chars after : List Char)
    (h : Spelled kind chars after) (hkind : kind = radix.kind) :
    ∃ digits, chars = radix.mark ++ digits ∧ ∀ c ∈ digits, digitPlace c < radix.base := by
  simp only [← Radix.isDigit_iff]
  cases h with
  | integer _ hdigits =>
    cases radix with
    | decimal => exact ⟨chars, rfl, hdigits⟩
    | hexadecimal => cases hkind
  | hex hdigits =>
    cases radix with
    | decimal => cases hkind
    | hexadecimal => exact ⟨_, rfl, hdigits⟩
  | keyword hk | pair hk | single hk =>
    subst hkind
    cases radix <;> exact absurd hk (by decide)
  | _ => cases radix <;> cases hkind

theorem formed_numeral (radix : Radix) (literal : String) (digits : List Char)
    (h : literal.toList = radix.mark ++ digits) (hne : digits ≠ [])
    (hdigits : ∀ c ∈ digits, digitPlace c < radix.base) : Token.Formed ⟨radix.kind, literal⟩ := by
  simp only [← Radix.isDigit_iff] at hdigits
  refine ⟨[], ?_⟩
  simp only [h]
  cases radix with
  | decimal => exact .integer hne hdigits
  | hexadecimal => exact .hex hdigits

theorem kind_eq_ite (radix : Radix) (digits : List Char) (h : ∀ c ∈ digits, digitPlace c < radix.base) :
    radix.kind = if ['0', 'x'] <+: radix.mark ++ digits then .hexInteger else .integer := by
  cases radix with
  | hexadecimal =>
    have hprefix : ['0', 'x'] <+: Radix.hexadecimal.mark ++ digits := List.prefix_append _ _
    rw [if_pos hprefix]
    rfl
  | decimal =>
    rw [if_neg]
    · rfl
    · -- The mark of the other radix has a letter, and decimal digits have none.
      intro hprefix
      have hx : 'x' ∈ digits := hprefix.subset (by simp)
      exact absurd (h 'x' hx) (by decide)

theorem denotes_iff_of_formed (token : Token) (n : Nat) (h : token.Formed) :
    Denotes token.literal.toList n ↔
      (token.kind = .integer ∧ placeValue 10 token.literal.toList = n) ∨
      (token.kind = .hexInteger ∧ token.literal ≠ "0x" ∧ placeValue 16 (token.literal.toList.drop 2) = n) := by
  constructor
  · rintro ⟨radix, digits, hliteral, hne, hdigits, rfl⟩
    have htoken := formed_ext token _ h (formed_numeral radix _ digits hliteral hne hdigits) rfl
    have hkind : token.kind = radix.kind := congrArg Token.kind htoken
    cases radix with
    | decimal => exact .inl ⟨hkind, by rw [hliteral]; rfl⟩
    | hexadecimal =>
      refine .inr ⟨hkind, ?_, by rw [hliteral]; rfl⟩
      intro hbare
      obtain rfl : [] = digits := by simpa [hbare, Radix.mark] using hliteral
      exact hne rfl
  · obtain ⟨after, hspelled⟩ := h
    rintro (⟨hkind, rfl⟩ | ⟨hkind, hbare, rfl⟩)
    · obtain ⟨digits, hliteral, hdigits⟩ := digits_of_spelled .decimal _ _ _ hspelled hkind
      have hne := spelled_ne_nil _ _ _ hspelled
      rw [hliteral] at hne ⊢
      exact ⟨.decimal, digits, rfl, hne, hdigits, rfl⟩
    · obtain ⟨digits, hliteral, hdigits⟩ := digits_of_spelled .hexadecimal _ _ _ hspelled hkind
      refine ⟨.hexadecimal, digits, hliteral, ?_, hdigits, by rw [hliteral]; rfl⟩
      rintro rfl
      exact hbare (String.toList_injective hliteral)

/-! ## Integers and tokens -/

theorem denotes_iff_of_mem_scan (code : String) (token : Token) (n : Nat) (h : token ∈ scan code) :
    Denotes token.literal.toList n ↔
      (token.kind = .integer ∧ placeValue 10 token.literal.toList = n) ∨
      (token.kind = .hexInteger ∧ token.literal ≠ "0x" ∧ placeValue 16 (token.literal.toList.drop 2) = n) := by
  rcases eof_or_formed code token h with rfl | hformed
  · simp [denotes_iff, Token.eof, splitRadix]
  · exact denotes_iff_of_formed token n hformed

theorem scan_of_denotes (literal : String) (n : Nat) (h : Denotes literal.toList n) :
    scan literal =
      [⟨if ['0', 'x'] <+: literal.toList then .hexInteger else .integer, literal⟩, Token.eof] := by
  obtain ⟨radix, digits, hliteral, hne, hdigits, -⟩ := h
  have hreads := reads_alone _ (formed_numeral radix literal digits hliteral hne hdigits)
  rw [hliteral, ← kind_eq_ite radix digits hdigits]
  exact (reads_iff literal _).mp hreads

/-- A token has an integer value just if it is a numeral with digits and the type reaches so far, and otherwise it
is refused as it stands. Every text with an integer value is read as one numeral. -/
theorem scan_integer (type : IntType) :
    (∀ code, ∀ token ∈ scan code,
      ((∃ n, Numeral.integer type token.literal = .ok n) ↔
        (token.kind = .integer ∧ placeValue 10 token.literal.toList ≤ type.max) ∨
        (token.kind = .hexInteger ∧ token.literal ≠ "0x" ∧
          placeValue 16 (token.literal.toList.drop 2) ≤ type.max)) ∧
      ((∃ n, Numeral.integer type token.literal = .ok n) ∨
        Numeral.integer type token.literal = .error (.invalidInteger token.literal))) ∧
    ∀ literal n, Numeral.integer type literal = .ok n →
      scan literal =
        [⟨if ['0', 'x'] <+: literal.toList then .hexInteger else .integer, literal⟩, Token.eof] := by
  constructor
  · intro code token hmem
    simp only [integer_eq_error_iff, integer_eq_ok_iff]
    refine ⟨?_, Classical.em _⟩
    simp only [denotes_iff_of_mem_scan code token _ hmem]
    grind
  · intro literal n h
    exact scan_of_denotes literal n ((integer_eq_ok_iff type literal n).mp h).2

theorem scan_integer_byte :
    (⟨.hexInteger, "0xFf"⟩ ∈ scan "0xFf,0x 256" ∧ ∃ n, Numeral.integer (.unsigned .w8) "0xFf" = .ok n) ∧
      (⟨.hexInteger, "0x"⟩ ∈ scan "0xFf,0x 256" ∧
        Numeral.integer (.unsigned .w8) "0x" = .error (.invalidInteger "0x")) ∧
      (⟨.integer, "256"⟩ ∈ scan "0xFf,0x 256" ∧
        Numeral.integer (.unsigned .w8) "256" = .error (.invalidInteger "256")) ∧
      Numeral.integer (.unsigned .w8) "0x0fF" = .ok 255 ∧
      scan "0x0fF" = [⟨.hexInteger, "0x0fF"⟩, Token.eof] := by
  have hbyte := scan_integer (.unsigned .w8)
  have hlast : ⟨.hexInteger, "0xFf"⟩ ∈ scan "0xFf,0x 256" := by decide +kernel
  have hbare : ⟨.hexInteger, "0x"⟩ ∈ scan "0xFf,0x 256" := by decide +kernel
  have hnext : ⟨.integer, "256"⟩ ∈ scan "0xFf,0x 256" := by decide +kernel
  have hvalue : Numeral.integer (.unsigned .w8) "0x0fF" = .ok 255 := by decide +kernel
  refine ⟨⟨hlast, (hbyte.1 _ _ hlast).1.mpr (by decide +kernel)⟩, ⟨hbare, ?_⟩, ⟨hnext, ?_⟩, hvalue, ?_⟩
  · exact (hbyte.1 _ _ hbare).2.resolve_left fun h => absurd ((hbyte.1 _ _ hbare).1.mp h) (by decide +kernel)
  · exact (hbyte.1 _ _ hnext).2.resolve_left fun h => absurd ((hbyte.1 _ _ hnext).1.mp h) (by decide +kernel)
  · exact hbyte.2 _ _ hvalue

end Mel
