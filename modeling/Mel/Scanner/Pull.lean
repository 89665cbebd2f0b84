import Mel.Scanner.Basic

/-!
# Pulling tokens

The ways to take tokens off a scanner. Each gives what it took and the scanner after it. All but
`nextToken` leave the end of the text out and give `none`, or a shorter list, instead.
-/

namespace Mel.Scanner

def next (scanner : Scanner) : Option Token × Scanner :=
  let (token, after) := scanner.nextToken
  (if token.isEof then none else some token, after)

def nth (scanner : Scanner) : Nat → Option Token × Scanner
  | 0 => scanner.next
  | n + 1 =>
    match scanner.next with
    | (none, after) => (none, after)
    | (some _, after) => after.nth n

/-- At most `n` tokens. The scanner looks no further than the last of them. -/
def take (scanner : Scanner) : Nat → List Token × Scanner
  | 0 => ([], scanner)
  | n + 1 =>
    match scanner.next with
    | (none, after) => ([], after)
    | (some token, after) =>
      let (tokens, final) := after.take n
      (token :: tokens, final)

/-! ## To the end of the text -/

theorem length_rest_of_next {scanner after : Scanner} {token : Token}
    (h : scanner.next = (some token, after)) : after.rest.length < scanner.rest.length := by
  unfold next nextToken at h
  cases hl : Lexeme.first? scanner.skipBlanks.rest with
  | none => simp [hl, Token.isEof, Token.eof] at h
  | some lexeme =>
    obtain ⟨-, rfl⟩ : _ ∧ scanner.skipBlanks.forward lexeme.chars.length = after := by
      simpa [hl] using h
    have hpos := Lexeme.length_chars_pos hl
    have hne : scanner.skipBlanks.rest ≠ [] := by
      intro hnil
      simp [hnil, Lexeme.first?] at hl
    have hblank : scanner.skipBlanks.rest.length ≤ scanner.rest.length := by
      simp [skipBlanks, rest_forward]
    have := List.length_pos_iff.2 hne
    rw [rest_forward, List.length_drop]
    omega

/-- All tokens that are left. The scanner runs into the end, past the blanks before it. -/
def drain (scanner : Scanner) : List Token × Scanner :=
  match _h : scanner.next with
  | (none, after) => ([], after)
  | (some token, after) =>
    let (tokens, final) := after.drain
    (token :: tokens, final)
termination_by scanner.rest.length
decreasing_by exact length_rest_of_next ‹_›

end Mel.Scanner

namespace Mel

/-- All tokens of a text and then the one token that stands for its end. -/
def scan (text : String) : List Token := (Scanner.ofText text).drain.1 ++ [Token.eof]

end Mel
