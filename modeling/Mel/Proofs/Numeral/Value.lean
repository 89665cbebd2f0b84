import Mathlib.Data.List.Induction
import Mathlib.Data.Nat.Digits.Defs
import Mel.Numeral.Integer

/-!
# The number a literal writes

Each digit counts by its place, so a row of digits writes a number however long it is. A literal has that number
as its value if the type reaches so far, and otherwise it has none (`integer_eq_ok_iff`).
-/

namespace Mel

/-! ## Digits in their places -/

def digitPlace (c : Char) : Nat := "0123456789abcdef".toList.idxOf c.toLower

/-- Each digit counts by its place: the last one by ones, the one before it by the base, and so on. -/
def placeValue (base : Nat) (digits : List Char) : Nat :=
  Nat.ofDigits base (digits.reverse.map digitPlace)

theorem placeValue_concat (base : Nat) (digits : List Char) (c : Char) :
    placeValue base (digits ++ [c]) = placeValue base digits * base + digitPlace c := by
  simp only [placeValue, List.reverse_append, List.reverse_singleton, List.singleton_append, List.map_cons,
    Nat.ofDigits_cons]
  rw [Nat.mul_comm, Nat.add_comm]

/-! ## Digits looked up -/

theorem ascii_of_isHexDigit (c : Char) (h : c.isHexDigit = true) : c.toNat < 128 := by
  simp only [Char.isHexDigit, Char.isDigit, Bool.or_eq_true, Bool.and_eq_true, decide_eq_true_eq,
    UInt32.le_iff_toNat_le] at h
  have hval : c.toNat = c.val.toNat := rfl
  have hbounds : '9'.val.toNat = 57 ∧ 'f'.val.toNat = 102 ∧ 'F'.val.toNat = 70 := ⟨rfl, rfl, rfl⟩
  omega

theorem ascii_of_digitPlace (c : Char) (h : digitPlace c < 16) : c.toNat < 128 := by
  have hrow : ∀ d ∈ "0123456789abcdef".toList, d.toNat < 128 := by simp
  have hmem : c.toLower ∈ "0123456789abcdef".toList := List.idxOf_lt_length_iff.mp h
  have hlower := hrow _ hmem
  unfold Char.toLower at hlower
  split at hlower
  · next hupper =>
    have hval : c.toNat = c.val.toNat := rfl
    have hbound : 'Z'.val.toNat = 90 := rfl
    have hle := UInt32.le_iff_toNat_le.mp hupper.2
    omega
  · exact hlower

theorem digit_of_ascii (c : Char) (h : c.toNat < 128) :
    c.isHexDigit = decide (digitPlace c < 16) ∧ c.isDigit = decide (digitPlace c < 10) ∧
      (c.isHexDigit = true → digitValue c = digitPlace c) := by
  have hall : ∀ n < 128, (Char.ofNat n).isHexDigit = decide (digitPlace (Char.ofNat n) < 16) ∧
      (Char.ofNat n).isDigit = decide (digitPlace (Char.ofNat n) < 10) ∧
      ((Char.ofNat n).isHexDigit = true → digitValue (Char.ofNat n) = digitPlace (Char.ofNat n)) := by
    decide +kernel
  have hc := hall c.toNat h
  rwa [Char.ofNat_toNat] at hc

namespace Radix

theorem isHexDigit_of_isDigit (radix : Radix) (c : Char) (h : radix.isDigit c = true) :
    c.isHexDigit = true := by
  cases radix with
  | decimal => simp [Char.isHexDigit, show c.isDigit = true from h]
  | hexadecimal => exact h

theorem base_le (radix : Radix) : radix.base ≤ 16 := by cases radix <;> decide

theorem isDigit_iff (radix : Radix) (c : Char) : radix.isDigit c = true ↔ digitPlace c < radix.base := by
  have hiff : c.toNat < 128 → (radix.isDigit c = true ↔ digitPlace c < radix.base) := by
    intro hascii
    obtain ⟨hhex, hdecimal, -⟩ := digit_of_ascii c hascii
    cases radix <;> simp [isDigit, base, hhex, hdecimal]
  constructor
  · intro h
    exact (hiff (ascii_of_isHexDigit c (isHexDigit_of_isDigit radix c h))).mp h
  · intro h
    exact (hiff (ascii_of_digitPlace c (Nat.lt_of_lt_of_le h radix.base_le))).mpr h

theorem digitValue_eq (radix : Radix) (c : Char) (h : radix.isDigit c = true) :
    digitValue c = digitPlace c := by
  have hhex := isHexDigit_of_isDigit radix c h
  exact (digit_of_ascii c (ascii_of_isHexDigit c hhex)).2.2 hhex

/-! ## The mark of a radix -/

def mark : Radix → List Char
  | decimal => []
  | hexadecimal => ['0', 'x']

end Radix

namespace Numeral

theorem mark_splitRadix (literal : List Char) :
    (splitRadix literal).1.mark ++ (splitRadix literal).2 = literal := by
  match literal with
  | [] | [_] => rfl
  | c :: d :: digits =>
    by_cases h : c = '0' ∧ d = 'x'
    · obtain ⟨rfl, rfl⟩ := h
      rfl
    · have hsplit : splitRadix (c :: d :: digits) = (.decimal, c :: d :: digits) := by simp [splitRadix, h]
      rw [hsplit]
      rfl

theorem splitRadix_mark (radix : Radix) (digits : List Char) (h : ∀ c ∈ digits, radix.isDigit c = true) :
    splitRadix (radix.mark ++ digits) = (radix, digits) := by
  cases radix with
  | hexadecimal => simp [Radix.mark, splitRadix]
  | decimal =>
    match digits with
    | [] | [_] => rfl
    | c :: d :: digits =>
      have hx : d ≠ 'x' := by
        rintro rfl
        exact absurd (h 'x' (by simp)) (by decide)
      simp [Radix.mark, splitRadix, hx]

/-! ## The value of a literal -/

/-- The literal is one or more digits of a radix behind its mark, and they write the number. -/
def Denotes (literal : List Char) (n : Nat) : Prop :=
  ∃ radix digits, literal = Radix.mark radix ++ digits ∧ digits ≠ [] ∧
    (∀ c ∈ digits, digitPlace c < radix.base) ∧ n = placeValue radix.base digits

theorem number_eq_placeValue (radix : Radix) (digits : List Char) (h : ∀ c ∈ digits, radix.isDigit c = true) :
    number radix.base digits = placeValue radix.base digits := by
  induction digits using List.reverseRecOn with
  | nil => rfl
  | append_singleton digits c ih =>
    have hdigits : ∀ d ∈ digits, radix.isDigit d = true := fun d hd => h d (List.mem_append_left _ hd)
    have hc := radix.digitValue_eq c (h c (by simp))
    have hfold : number radix.base (digits ++ [c]) = number radix.base digits * radix.base + digitValue c := by
      simp [number, List.foldl_append]
    rw [hfold, ih hdigits, hc, placeValue_concat]

theorem denotes_iff (literal : List Char) (n : Nat) :
    Denotes literal n ↔ (splitRadix literal).2 ≠ [] ∧
      (∀ c ∈ (splitRadix literal).2, (splitRadix literal).1.isDigit c = true) ∧
      number (splitRadix literal).1.base (splitRadix literal).2 = n := by
  constructor
  · rintro ⟨radix, digits, rfl, hne, hdigits, rfl⟩
    simp only [← Radix.isDigit_iff] at hdigits
    rw [splitRadix_mark radix digits hdigits]
    exact ⟨hne, hdigits, number_eq_placeValue radix digits hdigits⟩
  · rintro ⟨hne, hdigits, rfl⟩
    refine ⟨_, _, (mark_splitRadix literal).symm, hne, ?_, number_eq_placeValue _ _ hdigits⟩
    simpa only [← Radix.isDigit_iff] using hdigits

theorem integer_eq_ok_iff (type : IntType) (literal : String) (n : Nat) :
    integer type literal = .ok n ↔ n ≤ type.max ∧ Denotes literal.toList n := by
  rw [denotes_iff]
  simp only [integer]
  split_ifs with h
  · simp only [Bool.and_eq_true, Bool.not_eq_true', List.isEmpty_eq_false_iff, List.all_eq_true,
      decide_eq_true_eq] at h
    obtain ⟨⟨hne, hdigits⟩, hmax⟩ := h
    simp only [Except.ok.injEq]
    constructor
    · rintro rfl
      exact ⟨hmax, hne, hdigits, rfl⟩
    · exact fun hn => hn.2.2.2
  · simp only [false_iff]
    rintro ⟨hmax, hne, hdigits, rfl⟩
    exact h (by simpa [hne, hmax] using hdigits)

theorem integer_eq_error_iff (type : IntType) (literal : String) :
    integer type literal = .error (.invalidInteger literal) ↔
      ¬ ∃ n ≤ type.max, Denotes literal.toList n := by
  simp only [← integer_eq_ok_iff]
  simp only [integer]
  split_ifs <;> simp

end Numeral

end Mel
