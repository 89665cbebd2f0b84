import Mel.Token.Kind

/-!
# Numerals as they are written

A decimal numeral has up to three parts: digits, a fraction, and an exponent. An exponent needs its
sign but no digits, so `1e5` is the integer `1` before a word, and `1e+` is one numeral.
-/

namespace Mel

/-- The parts of a decimal numeral. The fraction starts with its point and the exponent with its letter, so
an absent part is the empty one. -/
structure Numeral where
  whole : List Char
  fraction : List Char
  exponent : List Char

namespace Numeral

def fractionOf : List Char → List Char
  | [] => []
  | c :: rest => if c = '.' then c :: rest.takeWhile Char.isDigit else []

def exponentOf : List Char → List Char
  | c :: sign :: rest =>
    if (c = 'e' || c = 'E') && (sign = '+' || sign = '-') then
      c :: sign :: rest.takeWhile Char.isDigit
    else []
  | _ => []

/-- The longest numeral that a text starts with. Every part may come out empty. -/
def ofText (text : List Char) : Numeral :=
  let afterWhole := text.dropWhile Char.isDigit
  let fraction := fractionOf afterWhole
  { whole := text.takeWhile Char.isDigit
    fraction := fraction
    exponent := exponentOf (afterWhole.drop fraction.length) }

def chars (numeral : Numeral) : List Char :=
  numeral.whole ++ numeral.fraction ++ numeral.exponent

theorem chars_ofText_ne_nil {c : Char} {rest : List Char}
    (h : (c.isDigit || (c = '.' && rest.head?.any Char.isDigit)) = true) :
    (ofText (c :: rest)).chars ≠ [] := by
  cases hc : c.isDigit with
  | true => simp [chars, ofText, hc]
  | false =>
    have hdot : c = '.' := by simp_all
    simp [chars, ofText, hdot, fractionOf]

def kind (numeral : Numeral) : TokenKind :=
  if numeral.fraction.isEmpty && numeral.exponent.isEmpty then .integer else .float

end Numeral

end Mel
