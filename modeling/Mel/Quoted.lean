/-!
# Quoted text

Between double quotes a backslash hides the character after it, so a hidden quote does not end the
text. Where a quoted text ends, what stands between its quotes and which characters it spells are
three readings of that one rule.
-/

namespace Mel.Quoted

/-! ## Where it ends -/

/-- The part of a text that belongs to a quoted text opened just before it: up to the closing quote
and with it, or everything if there is none. -/
def span : List Char → List Char
  | [] => []
  | [c] => [c]
  | c :: d :: rest =>
    if c = '"' then [c]
    else if c = '\\' then c :: d :: span rest
    else c :: span (d :: rest)

/-! ## What stands between the quotes -/

/-- Whether an odd number of backslashes ends the text, so that the last of them hides what follows. -/
def endsHiding (chars : List Char) : Bool :=
  (chars.reverse.takeWhile (· = '\\')).length % 2 = 1

def afterOpening : List Char → List Char
  | [] => []
  | c :: rest => if c = '"' then rest else c :: rest

def beforeClosing (inner : List Char) : List Char :=
  if inner.getLast? = some '"' && !endsHiding inner.dropLast then inner.dropLast else inner

def bodyChars (literal : List Char) : List Char := beforeClosing (afterOpening literal)

/-- A literal without its quotes. The closing one may be missing. -/
def body (literal : String) : String := String.ofList (bodyChars literal.toList)

/-! ## What it spells -/

def escaped (c : Char) : Char :=
  if c = 'n' then '\n' else if c = 't' then '\t' else if c = 'r' then '\r' else c

/-- A backslash with nothing after it spells itself. -/
def unescapeChars : List Char → List Char
  | [] => []
  | [c] => [c]
  | c :: d :: rest =>
    if c = '\\' then escaped d :: unescapeChars rest else c :: unescapeChars (d :: rest)

def unescape (body : String) : String := String.ofList (unescapeChars body.toList)

def value (literal : String) : String := unescape (body literal)

end Mel.Quoted
