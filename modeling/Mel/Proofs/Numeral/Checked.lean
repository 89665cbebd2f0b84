import Mel.Proofs.Numeral.Value

/-!
# Integers read digit by digit

A number can be read in the type itself, if every product and every sum on the way is checked. This reading also
takes a sign, so a literal first has to start with a digit. Then it gives the value of the literal, and it fails at
the first digit behind which the type does not reach (`integer_exact`).
-/

namespace Mel

/-! ## Checked steps -/

namespace IntType

def min : IntType → Int
  | signed width => -(2 ^ (width.bits - 1))
  | unsigned _ => 0

def hold? (type : IntType) (n : Int) : Option Int :=
  if type.min ≤ n ∧ n ≤ type.max then some n else none

/-- One more digit behind a number. The type has to hold the product and then the sum, or the difference if the
number is negative. -/
def push? (type : IntType) (radix : Radix) (negative : Bool) (n : Int) (c : Char) : Option Int := do
  let product ← type.hold? (n * radix.base)
  if radix.isDigit c then
    type.hold? (if negative then product - digitValue c else product + digitValue c)
  else none

/-- A number with a sign or without one. A minus is a sign only in a type with negative numbers, and a sign
alone is no number. -/
def read? (type : IntType) (radix : Radix) : List Char → Option Int
  | [] => none
  | ['+'] | ['-'] => none
  | '+' :: digits => digits.foldlM (type.push? radix false) 0
  | '-' :: digits => if type.min < 0 then digits.foldlM (type.push? radix true) 0 else none
  | digits => digits.foldlM (type.push? radix false) 0

end IntType

namespace Numeral

def checkedInteger (type : IntType) (literal : String) : Except Error Int :=
  let (radix, digits) := splitRadix literal.toList
  if digits.head?.any radix.isDigit then
    (type.read? radix digits).elim (.error (.invalidInteger literal)) .ok
  else .error (.invalidInteger literal)

/-! ## One digit -/

theorem min_nonpos (type : IntType) : type.min ≤ 0 := by
  cases type with
  | signed width =>
    have hpos : (0 : Int) < 2 ^ (width.bits - 1) := by positivity
    simp only [IntType.min]
    omega
  | unsigned width => exact le_rfl

theorem hold?_natCast (type : IntType) (n : Nat) :
    type.hold? n = if n ≤ type.max then some (n : Int) else none := by
  have hmin := min_nonpos type
  simp only [IntType.hold?, Nat.cast_le]
  congr 1
  simp only [eq_iff_iff, and_iff_right_iff_imp]
  omega

theorem push?_natCast (type : IntType) (radix : Radix) (n : Nat) (c : Char) :
    type.push? radix false n c =
      if radix.isDigit c = true ∧ n * radix.base + digitValue c ≤ type.max then
        some ((n * radix.base + digitValue c : Nat) : Int)
      else none := by
  have hproduct : (n : Int) * radix.base = (n * radix.base : Nat) := by push_cast; rfl
  have hsum : ((n * radix.base : Nat) : Int) + digitValue c = (n * radix.base + digitValue c : Nat) := by
    push_cast; rfl
  rw [IntType.push?, hproduct, hold?_natCast]
  by_cases hc : radix.isDigit c = true
  · by_cases hle : n * radix.base ≤ type.max
    · simp only [hle, hc, if_true, Option.bind_eq_bind, Option.bind_some, Bool.false_eq_true, if_false, hsum,
        hold?_natCast, true_and]
    · -- The sum is no smaller than the product, so it does not fit either.
      have hmax : ¬ n * radix.base + digitValue c ≤ type.max := by omega
      simp [hle, hmax]
  · by_cases hle : n * radix.base ≤ type.max <;> simp [hle, hc]

/-! ## All digits -/

def numberFrom (base n : Nat) (digits : List Char) : Nat :=
  digits.foldl (fun n digit => n * base + digitValue digit) n

theorem le_numberFrom (radix : Radix) (n : Nat) (digits : List Char) :
    n ≤ numberFrom radix.base n digits := by
  induction digits generalizing n with
  | nil => exact le_rfl
  | cons c digits ih =>
    have hbase : 1 ≤ radix.base := by cases radix <;> decide
    have hstep : n ≤ n * radix.base := Nat.le_mul_of_pos_right n hbase
    calc
      n ≤ n * radix.base + digitValue c := by omega
      _ ≤ numberFrom radix.base (n * radix.base + digitValue c) digits := ih _

/-- The digits on the way only make the number larger. So the reading fails behind a digit just if the type does
not hold the whole number. -/
theorem foldlM_push? (type : IntType) (radix : Radix) (n : Nat) (digits : List Char) (hn : n ≤ type.max) :
    digits.foldlM (type.push? radix false) (n : Int) =
      if digits.all radix.isDigit = true ∧ numberFrom radix.base n digits ≤ type.max then
        some (numberFrom radix.base n digits : Int)
      else none := by
  induction digits generalizing n with
  | nil => simp [numberFrom, hn]
  | cons c digits ih =>
    have hgrow := le_numberFrom radix (n * radix.base + digitValue c) digits
    have hcons : numberFrom radix.base n (c :: digits) =
      numberFrom radix.base (n * radix.base + digitValue c) digits := rfl
    rw [List.foldlM_cons, push?_natCast, hcons, List.all_cons]
    by_cases hstep : radix.isDigit c = true ∧ n * radix.base + digitValue c ≤ type.max
    · rw [if_pos hstep, Option.bind_eq_bind, Option.bind_some, ih _ hstep.2, hstep.1, Bool.true_and]
    · rw [if_neg hstep, if_neg]
      · rfl
      · rintro ⟨hdigits, hmax⟩
        rw [Bool.and_eq_true] at hdigits
        exact hstep ⟨hdigits.1, by omega⟩

/-! ## The whole literal -/

theorem read?_of_digit (type : IntType) (radix : Radix) (c : Char) (digits : List Char)
    (h : radix.isDigit c = true) :
    type.read? radix (c :: digits) = (c :: digits).foldlM (type.push? radix false) 0 := by
  have hplus : c ≠ '+' := by
    rintro rfl
    cases radix <;> exact absurd h (by decide)
  have hminus : c ≠ '-' := by
    rintro rfl
    cases radix <;> exact absurd h (by decide)
  unfold IntType.read?
  split <;> simp_all

theorem checkedInteger_eq (type : IntType) (literal : String) :
    (integer type literal).map Nat.cast = checkedInteger type literal := by
  simp only [integer, checkedInteger]
  generalize splitRadix literal.toList = parts
  obtain ⟨radix, digits⟩ := parts
  cases digits with
  | nil => rfl
  | cons c digits =>
    by_cases hc : radix.isDigit c = true
    · have hread : type.read? radix (c :: digits) = _ := read?_of_digit type radix c digits hc
      have hall := foldlM_push? type radix 0 (c :: digits) (Nat.zero_le _)
      have hnumber : number radix.base (c :: digits) = numberFrom radix.base 0 (c :: digits) := rfl
      rw [Nat.cast_zero] at hall
      simp only [hread, hall, hnumber, List.head?_cons, Option.any_some, hc, if_true, List.isEmpty_cons,
        Bool.not_false, Bool.true_and, Bool.and_eq_true, decide_eq_true_eq]
      split <;> rfl
    · simp [hc, Except.map]

/-- A literal that denotes a number of the type has this number for its value, and every other literal is refused
as it stands. Reading it digit by digit with checks comes to the same. -/
theorem integer_exact (type : IntType) (literal : String) :
    (∀ n, integer type literal = .ok n ↔ n ≤ type.max ∧ Denotes literal.toList n) ∧
    (integer type literal = .error (.invalidInteger literal) ↔
      ¬ ∃ n ≤ type.max, Denotes literal.toList n) ∧
    (integer type literal).map Nat.cast = checkedInteger type literal :=
  ⟨integer_eq_ok_iff type literal, integer_eq_error_iff type literal, checkedInteger_eq type literal⟩

/-- The type does not hold the product before the last digit counts. -/
example :
    checkedInteger (.signed .w8) "0x007F" = .ok 127 ∧
      checkedInteger (.signed .w8) "130" = .error (.invalidInteger "130") := by
  decide +kernel

end Numeral

end Mel
