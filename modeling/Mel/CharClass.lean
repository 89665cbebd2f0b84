/-!
# Classes of characters

The classes are ASCII. A character outside ASCII is never blank and never part of a word.
-/

namespace Mel

def isBlank (c : Char) : Bool := c = ' ' || c = '\t' || c = '\n' || c = '\r'

def isLetter (c : Char) : Bool := c.isAlpha || c = '_'

def isWordChar (c : Char) : Bool := isLetter c || c.isDigit

end Mel
