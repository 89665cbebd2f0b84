import Mel.Lexeme

/-!
# The scanner

A scanner is a place in a text. It remembers nothing but what is still to be read, and how many
characters were read before that.
-/

namespace Mel

structure Scanner where
  /-- How many characters of the text lie behind. -/
  position : Nat
  /-- The characters that lie ahead. -/
  rest : List Char

namespace Scanner

def ofText (text : String) : Scanner := ⟨0, text.toList⟩

/-- The character after the current one, be it blank or not. -/
def peek (scanner : Scanner) : Option Char := scanner.rest[1]?

/-! ## Moving on -/

/-- One character on. At the end of the text the scanner stays where it is. -/
def advance (scanner : Scanner) : Scanner :=
  match scanner.rest with
  | [] => scanner
  | _ :: rest => ⟨scanner.position + 1, rest⟩

def forward (scanner : Scanner) : Nat → Scanner
  | 0 => scanner
  | n + 1 => scanner.advance.forward n

def skipBlanks (scanner : Scanner) : Scanner :=
  scanner.forward (scanner.rest.takeWhile isBlank).length

/-- The next token, which is `Token.eof` when only blanks are left. -/
def nextToken (scanner : Scanner) : Token × Scanner :=
  let start := scanner.skipBlanks
  match Lexeme.first? start.rest with
  | none => (.eof, start)
  | some lexeme => (lexeme.token, start.forward lexeme.chars.length)

theorem rest_advance (scanner : Scanner) : scanner.advance.rest = scanner.rest.tail := by
  unfold advance
  split <;> simp_all

theorem rest_forward (scanner : Scanner) (n : Nat) :
    (scanner.forward n).rest = scanner.rest.drop n := by
  induction n generalizing scanner with
  | zero => rfl
  | succ n ih => rw [forward, ih, rest_advance, ← List.drop_one, List.drop_drop, Nat.add_comm]

end Scanner

end Mel
