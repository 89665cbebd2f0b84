/-!
# Kinds of tokens

What a token is, the text a kind is shown by, and which kinds are keywords.
-/

namespace Mel

inductive TokenKind where
  | eof
  /-- A character that starts no token. -/
  | illegal
  -- Names and data.
  | identifier | integer | hexInteger | float | stringLiteral
  -- Operators.
  | assign | eq | notEq | bang | lt | gt | doubleLt | doubleGt
  | plus | minus | slash | asterisk
  -- Punctuation.
  | semicolon | comma | lParen | rParen | lBrace | rBrace | lBracket | rBracket
  -- Operators that occur in trees alone. In a text `++` is two tokens, and `?` is illegal.
  | increment | decrement | question | colon
  -- Keywords.
  | stringWord | intWord | floatWord | vectorWord | matrixWord
  | globalWord | procWord | returnWord | ifWord | elseWord | forWord | inWord | whileWord | doWord
  | switchWord | caseWord | defaultWord | breakWord | continueWord | trueWord | falseWord
  deriving DecidableEq

namespace TokenKind

/-- What a kind is called in a message. Keywords, operators and punctuation go by their spelling. -/
def text : TokenKind → String
  | eof => "end of input"
  | illegal => "illegal character"
  | identifier => "identifier"
  | integer => "integer"
  | hexInteger => "hexadecimal integer"
  | float => "float"
  | stringLiteral => "string literal"
  | assign => "="
  | eq => "=="
  | notEq => "!="
  | bang => "!"
  | lt => "<"
  | gt => ">"
  | doubleLt => "<<"
  | doubleGt => ">>"
  | plus => "+"
  | minus => "-"
  | slash => "/"
  | asterisk => "*"
  | semicolon => ";"
  | comma => ","
  | lParen => "("
  | rParen => ")"
  | lBrace => "\x7b"
  | rBrace => "\x7d"
  | lBracket => "["
  | rBracket => "]"
  | increment => "++"
  | decrement => "--"
  | question => "?"
  | colon => ":"
  | stringWord => "string"
  | intWord => "int"
  | floatWord => "float"
  | vectorWord => "vector"
  | matrixWord => "matrix"
  | globalWord => "global"
  | procWord => "proc"
  | returnWord => "return"
  | ifWord => "if"
  | elseWord => "else"
  | forWord => "for"
  | inWord => "in"
  | whileWord => "while"
  | doWord => "do"
  | switchWord => "switch"
  | caseWord => "case"
  | defaultWord => "default"
  | breakWord => "break"
  | continueWord => "continue"
  | trueWord => "true"
  | falseWord => "false"

/-! ## Keywords -/

def keywordTable : List (String × TokenKind) :=
  [("string", stringWord), ("int", intWord), ("float", floatWord), ("vector", vectorWord),
    ("matrix", matrixWord), ("global", globalWord), ("proc", procWord), ("return", returnWord), ("if", ifWord),
    ("else", elseWord), ("for", forWord), ("in", inWord), ("while", whileWord), ("do", doWord),
    ("switch", switchWord), ("case", caseWord), ("default", defaultWord), ("break", breakWord),
    ("continue", continueWord), ("true", trueWord), ("false", falseWord)]

def keywords : List TokenKind := keywordTable.map Prod.snd

def isKeyword (kind : TokenKind) : Bool := keywords.contains kind

/-- The kind of a bare word: the keyword spelled like it, or else an identifier. -/
def ofWord (word : String) : TokenKind := (keywordTable.lookup word).getD identifier

end TokenKind

end Mel
