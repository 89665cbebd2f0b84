import Mel.Lexeme
import Mel.Proofs.CharClass

/-!
# Kinds with one spelling

A keyword, an operator and a punctuation mark have only one spelling, and that is the text of the kind.
-/

namespace Mel

/-! ## Words -/

def isWord : List Char → Bool
  | [] => false
  | c :: rest => isLetter c && rest.all isWordChar

theorem isWord_iff (text : List Char) :
    isWord text = true ↔ ∃ c rest, text = c :: rest ∧ isLetter c = true ∧ ∀ d ∈ rest, isWordChar d = true := by
  constructor
  · intro h
    cases text with
    | nil => simp [isWord] at h
    | cons c rest => exact ⟨c, rest, rfl, by simpa [isWord] using h⟩
  · rintro ⟨c, rest, rfl, h⟩
    simpa [isWord] using h

namespace TokenKind

theorem isWord_keyword (k : TokenKind) (h : k ∈ keywords) : isWord k.text.toList = true := by
  revert k
  decide

theorem keywordTable_eq : keywordTable = keywords.map fun k => (k.text, k) := rfl

theorem mem_keywordTable_iff (word : String) (k : TokenKind) :
    (word, k) ∈ keywordTable ↔ k ∈ keywords ∧ k.text = word := by
  rw [keywordTable_eq]
  constructor
  · intro h
    obtain ⟨k', hk, heq⟩ := List.mem_map.mp h
    obtain ⟨htext, rfl⟩ := Prod.mk.inj heq
    exact ⟨hk, htext⟩
  · rintro ⟨hk, rfl⟩
    exact List.mem_map_of_mem hk

theorem ofWord_text (k : TokenKind) (h : k ∈ keywords) : ofWord k.text = k := by
  revert k
  decide

theorem ofWord_cases (word : String) :
    (ofWord word = .identifier ∧ ∀ k ∈ keywords, k.text ≠ word) ∨
      (ofWord word ∈ keywords ∧ (ofWord word).text = word) := by
  cases h : keywordTable.lookup word with
  | none =>
    refine .inl ⟨by rw [ofWord, h, Option.getD_none], ?_⟩
    intro k hk htext
    have hne := List.lookup_eq_none_iff.mp h _ ((mem_keywordTable_iff word k).mpr ⟨hk, htext⟩)
    simp at hne
  | some k =>
    obtain ⟨before, after, htable, -⟩ := List.lookup_eq_some_iff.mp h
    have hmem : (word, k) ∈ keywordTable := by simp [htable]
    rw [ofWord, h, Option.getD_some]
    exact .inr ((mem_keywordTable_iff word k).mp hmem)

theorem ofWord_of_not_keyword (word : String) (h : ∀ k ∈ keywords, k.text ≠ word) :
    ofWord word = .identifier := by
  rcases ofWord_cases word with ⟨hk, -⟩ | ⟨hk, htext⟩
  · exact hk
  · exact absurd htext (h _ hk)

/-! ## Operators and punctuation -/

def pairs : List TokenKind := [eq, notEq, doubleLt, doubleGt]

def singles : List TokenKind :=
  [assign, bang, lt, gt, plus, minus, slash, asterisk, semicolon, comma, lParen, rParen, lBrace, rBrace,
    lBracket, rBracket]

theorem isKeyword_eq_false (k : TokenKind) (h : k ∈ singles ++ pairs) : k.isKeyword = false := by
  revert k
  decide

theorem symbol_char (k : TokenKind) (h : k ∈ singles ++ pairs) (c : Char) (hc : c ∈ k.text.toList) :
    c ≠ '$' ∧ c ≠ '"' ∧ isLetter c = false ∧ c.isDigit = false ∧ c ≠ '.' ∧ isBlank c = false := by
  have hall : ∀ k ∈ singles ++ pairs, k.text.toList.all (fun c => decide (c ≠ '$' ∧ c ≠ '"' ∧
      isLetter c = false ∧ c.isDigit = false ∧ c ≠ '.' ∧ isBlank c = false)) = true := by decide
  exact of_decide_eq_true (List.all_eq_true.mp (hall k h) c hc)

theorem ne_eof (k : TokenKind) (h : k ∈ keywords ++ singles ++ pairs) : k ≠ .eof := by
  rintro rfl
  exact absurd h (by decide)

end TokenKind

namespace Lexeme

open TokenKind

theorem singleKind_text (k : TokenKind) (h : k ∈ singles) : ∃ c, k.text.toList = [c] ∧ singleKind c = k := by
  simp only [singles, List.mem_cons, List.not_mem_nil, or_false] at h
  rcases h with rfl | rfl | rfl | rfl | rfl | rfl | rfl | rfl | rfl | rfl | rfl | rfl | rfl | rfl | rfl | rfl
  all_goals exact ⟨_, rfl, rfl⟩

theorem singleKind_spelled (c : Char) :
    singleKind c = .illegal ∨ (singleKind c ∈ singles ∧ (singleKind c).text.toList = [c]) := by
  unfold singleKind
  split
  case h_17 => exact .inl rfl
  all_goals exact .inr (by decide)

theorem singleKind_eq_illegal_iff (c : Char) :
    singleKind c = .illegal ↔ ∀ k ∈ singles, k.text.toList ≠ [c] := by
  constructor
  · rintro hc k hk htext
    obtain ⟨d, hd, hkind⟩ := singleKind_text k hk
    obtain rfl : d = c := by simpa [hd] using htext
    rw [hc] at hkind
    subst hkind
    exact absurd hk (by decide)
  · intro h
    rcases singleKind_spelled c with hc | ⟨hmem, htext⟩
    · exact hc
    · exact absurd htext (h _ hmem)

theorem pairKind?_text (k : TokenKind) (h : k ∈ pairs) :
    ∃ c d, k.text.toList = [c, d] ∧ pairKind? c d = some k := by
  simp only [pairs, List.mem_cons, List.not_mem_nil, or_false] at h
  rcases h with rfl | rfl | rfl | rfl
  all_goals exact ⟨_, _, rfl, rfl⟩

theorem pairKind?_spelled (c d : Char) (k : TokenKind) (h : pairKind? c d = some k) :
    k ∈ pairs ∧ k.text.toList = [c, d] := by
  simp only [pairKind?, Bool.and_eq_true, decide_eq_true_eq] at h
  split_ifs at h with h1 h2 h3 h4
  all_goals
    cases h
    simp [pairs, text, *]

end Lexeme

end Mel
