import Mel.Proofs.Scanner.Place

/-!
# Tokens that nothing behind them can change

A scanner knows where a token ends as soon as it has seen the two characters behind it. So no change of a text
reaches a token that ended two characters or more before the change (`placed_settled`).
-/

namespace Mel

open Lexeme

/-! ## One token -/

theorem stands_append_congr (lexeme : Lexeme) (after more other : List Char) (hlength : 2 ≤ after.length)
    (h : Stands lexeme (after ++ more)) : Stands lexeme (after ++ other) := by
  have hne : after ≠ [] := List.ne_nil_of_length_pos (by omega)
  have hletter : after ≠ ['e'] ∧ after ≠ ['E'] := by
    constructor
    all_goals
      rintro rfl
      simp at hlength
  have hno : ¬ Extends lexeme.kind lexeme.chars (after ++ other) := by
    have hends := h.2
    rw [extends_append_iff _ _ _ _ hne] at hends ⊢
    simpa [hletter] using hends
  exact ⟨spelled_of_not_extends _ _ _ _ h.1 hno, hno⟩

/-- The first token ends two characters or more before `more` begins. -/
def Settled (front more : List Char) : Prop :=
  ∃ blanks lexeme after, front = blanks ++ (lexeme.chars ++ after) ∧ Blank blanks ∧ 2 ≤ after.length ∧
    Stands lexeme (after ++ more)

theorem settled_congr (front more other : List Char) (h : Settled front more) : Settled front other := by
  obtain ⟨blanks, lexeme, after, hfront, hb, hlength, hstands⟩ := h
  exact ⟨blanks, lexeme, after, hfront, hb, hlength, stands_append_congr lexeme after more other hlength hstands⟩

/-! ## All tokens -/

namespace Scanner

def placedBefore (scanner : Scanner) (place : Nat) : List Placed :=
  scanner.placed.filter fun p => p.stop + 2 ≤ place

theorem placedBefore_of_stands (position place : Nat) (blanks after : List Char) (lexeme : Lexeme) (hb : Blank blanks)
    (h : Stands lexeme after) (hplace : position + blanks.length + lexeme.chars.length + 2 ≤ place) :
    placedBefore ⟨position, blanks ++ (lexeme.chars ++ after)⟩ place =
      ⟨lexeme.token, position + blanks.length + lexeme.chars.length⟩ ::
        placedBefore ⟨position + blanks.length + lexeme.chars.length, after⟩ place := by
  rw [placedBefore, placed_of_stands _ blanks after lexeme rfl hb h, List.filter_cons_of_pos (by simpa using hplace)]
  rfl

theorem placedBefore_eq_nil (position : Nat) (front more : List Char) (h : ¬ Settled front more) :
    placedBefore ⟨position, front ++ more⟩ (position + front.length) = [] := by
  rcases ahead_cases (front ++ more) with hblank | ⟨blanks, lexeme, after, hsplit, hb, hstands⟩
  · rw [placedBefore, placed_of_blank _ hblank, List.filter_nil]
  · have hfar : front.length < blanks.length + lexeme.chars.length + 2 := by
      by_contra hnear
      have hwithin : blanks ++ lexeme.chars <+: front := by
        have hstart : blanks ++ lexeme.chars <+: front ++ more := ⟨after, by rw [hsplit, List.append_assoc]⟩
        apply List.prefix_of_prefix_length_le hstart (List.prefix_append _ _)
        rw [List.length_append]
        omega
      obtain ⟨between, rfl⟩ := hwithin
      obtain rfl : between ++ more = after := by simpa using hsplit
      simp only [List.length_append] at hnear
      exact h ⟨blanks, lexeme, between, List.append_assoc _ _ _, hb, by omega, hstands⟩
    rw [placedBefore, List.filter_eq_nil_iff, placed_of_stands _ blanks after lexeme hsplit hb hstands]
    intro p hp
    rw [decide_eq_true_eq]
    rcases List.mem_cons.mp hp with rfl | hp
    · simp only
      omega
    · have hlt := position_lt_stop _ p hp
      simp only at hlt
      omega

theorem placedBefore_congr (position : Nat) (front more other : List Char) :
    placedBefore ⟨position, front ++ more⟩ (position + front.length) =
      placedBefore ⟨position, front ++ other⟩ (position + front.length) := by
  induction hlength : front.length using Nat.strong_induction_on generalizing position front with
  | _ length ih =>
    -- Both texts have the same settled token first, or neither has one.
    by_cases h : Settled front more
    · obtain ⟨blanks, lexeme, after, rfl, hb, htwo, hstands⟩ := h
      have hother := stands_append_congr lexeme after more other htwo hstands
      have hpos := List.length_pos_iff.mpr (spelled_ne_nil _ _ _ hstands.1)
      simp only [List.length_append] at hlength
      have hplace : position + length = position + blanks.length + lexeme.chars.length + after.length := by omega
      simp only [List.append_assoc]
      rw [placedBefore_of_stands position _ blanks _ lexeme hb hstands (by omega),
        placedBefore_of_stands position _ blanks _ lexeme hb hother (by omega), hplace,
        ih after.length (by omega) _ after rfl]
    · rw [← hlength, placedBefore_eq_nil position front more h,
        placedBefore_eq_nil position front other fun hother => h (settled_congr front other more hother)]

end Scanner

theorem filter_placed_congr (text other : String) (m : Nat) (h : m ≤ text.length)
    (hagree : text.toList.take m = other.toList.take m) :
    ((placed text).filter fun p => p.stop + 2 ≤ m) = (placed other).filter fun p => p.stop + 2 ≤ m := by
  have hfront : (text.toList.take m).length = m := by
    rw [List.length_take, String.length_toList, Nat.min_eq_left h]
  have hcongr := Scanner.placedBefore_congr 0 (text.toList.take m) (text.toList.drop m) (other.toList.drop m)
  rw [List.take_append_drop, hagree, List.take_append_drop, ← hagree, hfront, Nat.zero_add] at hcongr
  rw [← Scanner.placed_ofText, ← Scanner.placed_ofText]
  exact hcongr

/-- The tokens that are scanned stand in the text where their places say. Two texts that agree up to some place have
the same tokens there, in the same places. Only a token that ends less than two characters before the place may
differ. -/
theorem placed_settled :
    (∀ text : String, scan text = (placed text).map Placed.token ++ [Token.eof] ∧
      ∀ p ∈ placed text, ∃ front back, text.toList = front ++ (p.token.literal.toList ++ back) ∧
        p.stop = front.length + p.token.literal.length) ∧
    ∀ (text other : String) (m : Nat), m ≤ text.length → text.toList.take m = other.toList.take m →
      ((placed text).filter fun p => p.stop + 2 ≤ m) = (placed other).filter fun p => p.stop + 2 ≤ m := by
  refine ⟨fun text => ⟨scan_placed text, fun p hp => ?_⟩, filter_placed_congr⟩
  rw [← Scanner.placed_ofText] at hp
  obtain ⟨front, back, htext, -, hstop⟩ := Scanner.exists_front (Scanner.ofText text) p hp
  exact ⟨front, back, htext, by rw [hstop, Scanner.ofText, Nat.zero_add]⟩

/-- The numeral ends one character before the place, and grows with the sign behind it. -/
theorem placed_settled_exponent :
    (∃ front back, "x 7 1e".toList = front ++ ("7".toList ++ back) ∧ 3 = front.length + "7".length) ∧
      6 ≤ "x 7 1e".length ∧ "x 7 1e".toList.take 6 = "x 7 1e+2".toList.take 6 ∧
      ((placed "x 7 1e").filter fun p => p.stop + 2 ≤ 6) = [⟨⟨.identifier, "x"⟩, 1⟩, ⟨⟨.integer, "7"⟩, 3⟩] ∧
      ((placed "x 7 1e+2").filter fun p => p.stop + 2 ≤ 6) = [⟨⟨.identifier, "x"⟩, 1⟩, ⟨⟨.integer, "7"⟩, 3⟩] ∧
      ⟨⟨.integer, "1"⟩, 5⟩ ∈ placed "x 7 1e" ∧ ⟨⟨.integer, "1"⟩, 5⟩ ∉ placed "x 7 1e+2" := by
  obtain ⟨hplaces, hsettled⟩ := placed_settled
  have hseven : ⟨⟨.integer, "7"⟩, 3⟩ ∈ placed "x 7 1e" := by decide +kernel
  have hagree : "x 7 1e".toList.take 6 = "x 7 1e+2".toList.take 6 := by decide
  have hplaced : ((placed "x 7 1e").filter fun p => p.stop + 2 ≤ 6) =
      [⟨⟨.identifier, "x"⟩, 1⟩, ⟨⟨.integer, "7"⟩, 3⟩] := by decide +kernel
  have hsame := hsettled "x 7 1e" "x 7 1e+2" 6 (by decide) hagree
  exact ⟨(hplaces "x 7 1e").2 _ hseven, by decide, hagree, hplaced, hsame.symm.trans hplaced, by decide +kernel,
    by decide +kernel⟩

end Mel
