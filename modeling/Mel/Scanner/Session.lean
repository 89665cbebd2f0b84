import Mel.Scanner.Pull

/-!
# Sessions

A session is a row of scanners that answer requests, each for itself.
-/

namespace Mel

inductive Request where
  | nextToken
  | peek
  | next
  | nth (n : Nat)
  | take (n : Nat)
  /-- Take all tokens that are left. -/
  | rest
  /-- Take them all, and say how many they were. -/
  | count
  /-- Take them all, and say which was the last. -/
  | last

inductive Reply where
  | token (token : Token)
  | lookahead (char : Option Char)
  | taken (token : Option Token)
  | tokens (tokens : List Token)
  | count (n : Nat)
  deriving DecidableEq

def Scanner.answer (scanner : Scanner) : Request → Reply × Scanner
  | .nextToken => let (token, after) := scanner.nextToken; (.token token, after)
  | .peek => (.lookahead scanner.peek, scanner)
  | .next => let (token, after) := scanner.next; (.taken token, after)
  | .nth n => let (token, after) := scanner.nth n; (.taken token, after)
  | .take n => let (tokens, after) := scanner.take n; (.tokens tokens, after)
  | .rest => let (tokens, after) := scanner.drain; (.tokens tokens, after)
  | .count => let (tokens, after) := scanner.drain; (.count tokens.length, after)
  | .last => let (tokens, after) := scanner.drain; (.taken tokens.getLast?, after)

abbrev Session := List Scanner

namespace Session

def ofTexts (texts : List String) : Session := texts.map Scanner.ofText

def ask (session : Session) (index : Nat) (request : Request) : Option (Reply × Session) :=
  session[index]?.map fun scanner =>
    let (reply, after) := scanner.answer request
    (reply, session.set index after)

def askAll : List (Nat × Request) → Session → Option (List Reply × Session)
  | [], session => some ([], session)
  | (index, request) :: more, session => do
    let (reply, session) ← session.ask index request
    let (replies, session) ← askAll more session
    return (reply :: replies, session)

end Session

end Mel
