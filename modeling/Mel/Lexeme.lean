import Mel.CharClass
import Mel.Numeral.Basic
import Mel.Quoted
import Mel.Token.Basic

/-!
# Lexemes

The longest token that a text starts with. Every text but the empty one starts with a lexeme, because
a character that fits nowhere is a lexeme of its own, of kind `illegal`.
-/

namespace Mel

/-- The characters at the start of a text that make one token. -/
structure Lexeme where
  kind : TokenKind
  chars : List Char

namespace Lexeme

def token (lexeme : Lexeme) : Token := ⟨lexeme.kind, String.ofList lexeme.chars⟩

/-! ## Operators and punctuation -/

def pairKind? (c d : Char) : Option TokenKind :=
  if c = '=' && d = '=' then some .eq
  else if c = '!' && d = '=' then some .notEq
  else if c = '<' && d = '<' then some .doubleLt
  else if c = '>' && d = '>' then some .doubleGt
  else none

def singleKind : Char → TokenKind
  | '=' => .assign
  | '!' => .bang
  | '<' => .lt
  | '>' => .gt
  | ';' => .semicolon
  | '(' => .lParen
  | ')' => .rParen
  | '{' => .lBrace
  | '}' => .rBrace
  | '[' => .lBracket
  | ']' => .rBracket
  | ',' => .comma
  | '+' => .plus
  | '-' => .minus
  | '/' => .slash
  | '*' => .asterisk
  | _ => .illegal

/-- A pair goes before its first character alone. -/
def symbol (c : Char) : List Char → Lexeme
  | [] => ⟨singleKind c, [c]⟩
  | d :: _ =>
    match pairKind? c d with
    | some kind => ⟨kind, [c, d]⟩
    | none => ⟨singleKind c, [c]⟩

/-! ## Words and data -/

/-- A name after a dollar sign is never a keyword. -/
def sigilName (rest : List Char) : Lexeme := ⟨.identifier, '$' :: rest.takeWhile isWordChar⟩

def word (c : Char) (rest : List Char) : Lexeme :=
  let chars := c :: rest.takeWhile isWordChar
  ⟨.ofWord (String.ofList chars), chars⟩

def quoted (rest : List Char) : Lexeme := ⟨.stringLiteral, '"' :: Quoted.span rest⟩

/-- The prefix `0x` is a lexeme even without digits. -/
def hexadecimal (rest : List Char) : Lexeme :=
  ⟨.hexInteger, '0' :: 'x' :: rest.takeWhile Char.isHexDigit⟩

def decimal (text : List Char) : Lexeme :=
  let numeral := Numeral.ofText text
  ⟨numeral.kind, numeral.chars⟩

/-! ## The first lexeme -/

/-- The lexeme that the text `c :: rest` starts with. A point starts a numeral only before a digit. -/
def ofCons (c : Char) (rest : List Char) : Lexeme :=
  if c = '$' then sigilName rest
  else if c = '"' then quoted rest
  else if isLetter c then word c rest
  else if c = '0' && rest.head? = some 'x' then hexadecimal rest.tail
  else if c.isDigit || (c = '.' && rest.head?.any Char.isDigit) then decimal (c :: rest)
  else symbol c rest

def first? : List Char → Option Lexeme
  | [] => none
  | c :: rest => some (ofCons c rest)

theorem length_chars_pos {text : List Char} {lexeme : Lexeme} (h : first? text = some lexeme) :
    0 < lexeme.chars.length := by
  cases text with
  | nil => simp [first?] at h
  | cons c rest =>
    obtain rfl : ofCons c rest = lexeme := by simpa [first?] using h
    unfold ofCons
    split
    · simp [sigilName]
    split
    · simp [quoted]
    split
    · simp [word]
    split
    · simp [hexadecimal]
    split
    · next hstart => exact List.length_pos_iff.2 (Numeral.chars_ofText_ne_nil hstart)
    · unfold symbol
      split
      · simp
      · split <;> simp

end Lexeme

end Mel
