/-!
# The value of an integer numeral

A numeral carries no sign. It has a value in a fixed-width type if all its characters are digits and
the number they write does not exceed the largest one of the type.
-/

namespace Mel

/-! ## Integer types -/

inductive Width where
  | w8 | w16 | w32 | w64 | w128
  deriving DecidableEq

def Width.bits : Width → Nat
  | w8 => 8
  | w16 => 16
  | w32 => 32
  | w64 => 64
  | w128 => 128

inductive IntType where
  | signed (width : Width)
  | unsigned (width : Width)
  deriving DecidableEq

def IntType.max : IntType → Nat
  | signed width => Nat.pow 2 (width.bits - 1) - 1
  | unsigned width => Nat.pow 2 width.bits - 1

/-! ## Digits -/

inductive Radix where
  | decimal
  | hexadecimal
  deriving DecidableEq

namespace Radix

def base : Radix → Nat
  | decimal => 10
  | hexadecimal => 16

def isDigit : Radix → Char → Bool
  | decimal => Char.isDigit
  | hexadecimal => Char.isHexDigit

end Radix

def digitValue (c : Char) : Nat :=
  if c.isDigit then c.toNat - '0'.toNat
  else if c.isLower then c.toNat - 'a'.toNat + 10
  else c.toNat - 'A'.toNat + 10

namespace Numeral

def splitRadix : List Char → Radix × List Char
  | c :: d :: digits =>
    if c = '0' && d = 'x' then (.hexadecimal, digits) else (.decimal, c :: d :: digits)
  | digits => (.decimal, digits)

def number (base : Nat) (digits : List Char) : Nat :=
  digits.foldl (fun n digit => n * base + digitValue digit) 0

/-! ## Reading a literal -/

inductive Error where
  | invalidInteger (literal : String)
  deriving DecidableEq

def Error.message : Error → String
  | invalidInteger literal => "'" ++ literal ++ "' is not a representable integer."

def integer (type : IntType) (literal : String) : Except Error Nat :=
  let (radix, digits) := splitRadix literal.toList
  let n := number radix.base digits
  if !digits.isEmpty && digits.all radix.isDigit && n ≤ type.max then .ok n
  else .error (.invalidInteger literal)

end Numeral

end Mel
