import Mel.Proofs.Numeral.Form
import Mel.Proofs.Quoted.Items
import Mel.Proofs.Token.Spelling

/-!
# The grammar of lexemes

`Spelled` says which characters may be a lexeme, kind by kind and with no word on how they are found.
`Extends` says which text makes a lexeme that stands before it longer.
-/

namespace Mel

/-- A character that fits nowhere. A point is one, and it is a lexeme of its own unless a digit follows. -/
def Misfit (c : Char) : Prop :=
  isBlank c = false ∧ isLetter c = false ∧ c.isDigit = false ∧ c ≠ '$' ∧ c ≠ '"' ∧
    ∀ k ∈ TokenKind.singles, k.text.toList ≠ [c]

/-- The characters may be a lexeme of the kind, with `after` behind them. Only a quoted text without its
closing quote depends on what is behind it: nothing may be. -/
inductive Spelled : TokenKind → List Char → List Char → Prop where
  | sigil {name after : List Char} : (∀ c ∈ name, isWordChar c = true) →
      Spelled .identifier ('$' :: name) after
  | word {name after : List Char} : isWord name = true →
      (∀ k ∈ TokenKind.keywords, k.text.toList ≠ name) → Spelled .identifier name after
  | keyword {k : TokenKind} {after : List Char} : k ∈ TokenKind.keywords → Spelled k k.text.toList after
  | hex {digits after : List Char} : (∀ c ∈ digits, c.isHexDigit = true) →
      Spelled .hexInteger ('0' :: 'x' :: digits) after
  | integer {digits after : List Char} : digits ≠ [] → Numeral.Digits digits →
      Spelled .integer digits after
  | float {numeral after : List Char} : Numeral.Float numeral → Spelled .float numeral after
  | closed {body after : List Char} : Quoted.Items body →
      Spelled .stringLiteral ('"' :: (body ++ ['"'])) after
  | unclosed {body : List Char} : Quoted.Items body → Spelled .stringLiteral ('"' :: body) []
  | dangling {body : List Char} : Quoted.Items body →
      Spelled .stringLiteral ('"' :: (body ++ ['\\'])) []
  | pair {k : TokenKind} {after : List Char} : k ∈ TokenKind.pairs → Spelled k k.text.toList after
  | single {k : TokenKind} {after : List Char} : k ∈ TokenKind.singles → Spelled k k.text.toList after
  | illegal {c : Char} {after : List Char} : Misfit c → Spelled .illegal [c] after

/-- The characters behind a lexeme go on with more of it. -/
def Extends (kind : TokenKind) (chars after : List Char) : Prop :=
  match kind with
  | .hexInteger => startsWith Char.isHexDigit after
  | .integer => startsWith Char.isDigit after ∨ after.head? = some '.' ∨
      Numeral.StartsExponent after ∨ (chars = ['0'] ∧ after.head? = some 'x')
  | .float => startsWith Char.isDigit after ∨
      (¬ Numeral.HasExponent chars ∧ Numeral.StartsExponent after)
  | .stringLiteral => ¬ Quoted.Closed chars ∧ after ≠ []
  | .assign | .bang => after.head? = some '='
  | .lt => after.head? = some '<'
  | .gt => after.head? = some '>'
  | .illegal => chars = ['.'] ∧ startsWith Char.isDigit after
  | kind => (kind = .identifier ∨ kind.isKeyword = true) ∧ startsWith isWordChar after

/-! ## What all lexemes have in common -/

theorem spelled_kind_ne_eof (kind : TokenKind) (chars after : List Char) (h : Spelled kind chars after) :
    kind ≠ .eof := by
  cases h with
  | keyword hk => exact TokenKind.ne_eof _ (by simp [hk])
  | pair hk => exact TokenKind.ne_eof _ (by simp [hk])
  | single hk => exact TokenKind.ne_eof _ (by simp [hk])
  | _ => decide

theorem noBlank_word (name : List Char) (h : isWord name = true) : NoBlank name := by
  obtain ⟨c, rest, rfl, hl, hrest⟩ := (isWord_iff name).mp h
  apply noBlank_of_class _ isWordChar_of_isBlank
  intro d hd
  rcases List.mem_cons.mp hd with rfl | hd
  · simp [isWordChar, hl]
  · exact hrest d hd

theorem noBlank_symbol (k : TokenKind) (h : k ∈ TokenKind.singles ++ TokenKind.pairs) :
    NoBlank k.text.toList := fun c hc => (TokenKind.symbol_char k h c hc).2.2.2.2.2

theorem noBlank_spelled (kind : TokenKind) (chars after : List Char) (h : Spelled kind chars after)
    (hkind : kind ≠ .stringLiteral) : NoBlank chars := by
  cases h with
  | sigil hname =>
    have hdollar : NoBlank ['$'] := by simp [NoBlank, isBlank]
    exact noBlank_append _ _ hdollar (noBlank_of_class _ isWordChar_of_isBlank _ hname)
  | word hword => exact noBlank_word _ hword
  | keyword hk => exact noBlank_word _ (TokenKind.isWord_keyword _ hk)
  | hex hdigits =>
    have hzero : NoBlank ['0', 'x'] := by simp [NoBlank, isBlank]
    exact noBlank_append _ _ hzero (noBlank_of_class _ isHexDigit_of_isBlank _ hdigits)
  | integer _ hdigits => exact Numeral.noBlank_digits _ hdigits
  | float hfloat => exact Numeral.noBlank_float _ hfloat
  | closed | unclosed | dangling => exact absurd rfl hkind
  | pair hk => exact noBlank_symbol _ (List.mem_append_right _ hk)
  | single hk => exact noBlank_symbol _ (List.mem_append_left _ hk)
  | illegal hc => simpa [NoBlank] using hc.1

theorem spelled_string (kind : TokenKind) (chars after : List Char) (h : Spelled kind chars after)
    (hkind : kind = .stringLiteral) :
    (∃ rest, chars = '"' :: rest) ∧ (Quoted.Closed chars ∨ (after = [] ∧ ¬ Quoted.Closed chars)) := by
  cases h with
  | @closed body _ hbody => exact ⟨⟨_, rfl⟩, .inl ⟨body, hbody, rfl⟩⟩
  | unclosed hbody => exact ⟨⟨_, rfl⟩, .inr ⟨rfl, Quoted.not_closed_of_items _ hbody⟩⟩
  | dangling => exact ⟨⟨_, rfl⟩, .inr ⟨rfl, Quoted.not_closed_of_dangling _⟩⟩
  | keyword hk | pair hk | single hk =>
    subst hkind
    exact absurd hk (by decide)
  | _ => cases hkind

theorem spelled_ne_nil (kind : TokenKind) (chars after : List Char) (h : Spelled kind chars after) :
    chars ≠ [] := by
  cases h with
  | word hword =>
    rintro rfl
    cases hword
  | keyword hk =>
    have hword := TokenKind.isWord_keyword _ hk
    intro hnil
    rw [hnil] at hword
    cases hword
  | integer hne => exact hne
  | float hfloat => exact Numeral.float_ne_nil _ hfloat
  | pair hk =>
    obtain ⟨c, d, htext, -⟩ := Lexeme.pairKind?_text _ hk
    simp [htext]
  | single hk =>
    obtain ⟨c, htext, -⟩ := Lexeme.singleKind_text _ hk
    simp [htext]
  | _ => simp

theorem not_blank_spelled (kind : TokenKind) (chars before after : List Char)
    (h : Spelled kind chars before) : ¬ startsWith isBlank (chars ++ after) := by
  by_cases hkind : kind = .stringLiteral
  · obtain ⟨⟨rest, rfl⟩, -⟩ := spelled_string kind chars before h hkind
    simp [startsWith, isBlank]
  · obtain ⟨c, rest, rfl⟩ := List.exists_cons_of_ne_nil (spelled_ne_nil kind chars before h)
    rw [List.cons_append, startsWith_cons, Bool.not_eq_true]
    exact noBlank_spelled kind _ before h hkind c List.mem_cons_self

/-! ## Where a lexeme ends -/

theorem extends_keyword_iff (k : TokenKind) (chars after : List Char) (h : k ∈ TokenKind.keywords) :
    Extends k chars after ↔ startsWith isWordChar after := by
  have hkey : k.isKeyword = true := by simpa [TokenKind.isKeyword] using h
  cases k
  all_goals first
    | exact absurd h (by decide)
    | simp [Extends, hkey]

theorem not_extends_nil (kind : TokenKind) (chars : List Char) : ¬ Extends kind chars [] := by
  cases kind <;> simp [Extends, startsWith, Numeral.StartsExponent]

/-- A character that no lexeme goes on with, unless it is an open quoted text. -/
def isStop (c : Char) : Bool := !(isWordChar c || c = '.' || c = '=' || c = '<' || c = '>')

theorem isStop_of_isBlank (c : Char) (h : isBlank c = true) : isStop c = true := by
  rcases (isBlank_iff c).mp h with rfl | rfl | rfl | rfl <;> rfl

theorem ne_of_isStop (c d : Char) (h : isStop c = true) (hd : isStop d = false) : c ≠ d := by
  rintro rfl
  rw [h] at hd
  cases hd

theorem isWordChar_of_isStop (c : Char) (h : isStop c = true) : isWordChar c = false := by
  simp only [isStop, Bool.not_eq_true', Bool.or_eq_false_iff] at h
  exact h.1.1.1.1

def Stopped (text : List Char) : Prop := ∀ c ∈ text.head?, isStop c = true

theorem stopped_nil : Stopped [] := by simp [Stopped]

theorem stopped_cons (c : Char) (rest : List Char) (h : isStop c = true) : Stopped (c :: rest) := by
  simpa [Stopped] using h

theorem not_extends_stopped (kind : TokenKind) (chars after : List Char)
    (hclosed : kind = .stringLiteral → Quoted.Closed chars) (h : Stopped after) :
    ¬ Extends kind chars after := by
  cases after with
  | nil => exact not_extends_nil kind chars
  | cons c rest =>
    have hstop : isStop c = true := h c rfl
    have hword := isWordChar_of_isStop c hstop
    have hdigit := isDigit_of_not_isWordChar c hword
    have hhex := isHexDigit_of_not_isWordChar c hword
    have hmark : c ≠ '.' ∧ c ≠ '=' ∧ c ≠ '<' ∧ c ≠ '>' ∧ c ≠ 'x' := by
      refine ⟨?_, ?_, ?_, ?_, ?_⟩
      all_goals exact ne_of_isStop c _ hstop rfl
    have hexponent : ¬ Numeral.StartsExponent (c :: rest) := by
      rintro ⟨letter, sign, more, rfl | rfl, -, heq⟩
      · exact ne_of_isStop c 'e' hstop rfl (List.cons.inj heq).1
      · exact ne_of_isStop c 'E' hstop rfl (List.cons.inj heq).1
    cases kind <;> simp [Extends, startsWith_cons, hword, hdigit, hhex, hexponent, hmark, hclosed]

theorem not_extends_blank (kind : TokenKind) (chars after : List Char)
    (hclosed : kind = .stringLiteral → Quoted.Closed chars) (h : startsWith isBlank after) :
    ¬ Extends kind chars after := by
  apply not_extends_stopped kind chars after hclosed
  cases after with
  | nil => exact stopped_nil
  | cons c rest => exact stopped_cons c rest (isStop_of_isBlank c ((startsWith_cons _ _ _).mp h))

theorem not_extends_solid (kind : TokenKind) (chars after : List Char)
    (h : kind ∈ TokenKind.singles ++ TokenKind.pairs) (hkind : kind ∉ [.assign, .bang, .lt, .gt]) :
    ¬ Extends kind chars after := by
  have hkey := TokenKind.isKeyword_eq_false kind h
  cases kind
  all_goals first
    | exact absurd h (by decide)
    | exact absurd (by decide) hkind
    | simp [Extends, hkey]

/-- A numeral that can still get an exponent. -/
def Scalable (kind : TokenKind) (chars : List Char) : Prop :=
  kind = .integer ∨ (kind = .float ∧ ¬ Numeral.HasExponent chars)

theorem scalable_ne_string (kind : TokenKind) (chars : List Char) (h : Scalable kind chars) :
    kind ≠ .stringLiteral := by
  rcases h with rfl | ⟨rfl, -⟩
  · decide
  · decide

/-- Two characters decide whether a lexeme goes on, and mostly one does. Only the letter of an exponent needs
the character behind it. -/
theorem extends_append_iff (kind : TokenKind) (chars after more : List Char) (hne : after ≠ []) :
    Extends kind chars (after ++ more) ↔
      Extends kind chars after ∨
        (Scalable kind chars ∧ (after = ['e'] ∨ after = ['E']) ∧ startsWith Numeral.isSign more) := by
  have hhead : (after ++ more).head? = after.head? := by
    obtain ⟨c, rest, rfl⟩ := List.exists_cons_of_ne_nil hne
    rfl
  have hexponent := Numeral.startsExponent_append_iff after more hne
  cases kind
  case integer =>
    simp only [Extends, startsWith_append _ _ more hne, hhead, hexponent, Scalable]
    grind
  case float =>
    simp only [Extends, startsWith_append _ _ more hne, hexponent, Scalable]
    grind
  case stringLiteral => simp [Extends, Scalable, hne]
  all_goals
    simp only [Extends, startsWith_append _ _ more hne, hhead, Scalable, reduceCtorEq, false_and, or_false]

theorem spelled_of_not_extends (kind : TokenKind) (chars before after : List Char)
    (h : Spelled kind chars before) (hno : ¬ Extends kind chars after) : Spelled kind chars after := by
  by_cases hkind : kind = .stringLiteral
  · rcases (spelled_string kind chars before h hkind).2 with ⟨body, hbody, rfl⟩ | ⟨rfl, hopen⟩
    · subst hkind
      exact .closed hbody
    · have hnil : after = [] := by
        subst hkind
        simpa [Extends, hopen] using hno
      rwa [hnil]
  · cases h with
    | sigil hname => exact .sigil hname
    | word hword hkey => exact .word hword hkey
    | keyword hk => exact .keyword hk
    | hex hdigits => exact .hex hdigits
    | integer hne hdigits => exact .integer hne hdigits
    | float hfloat => exact .float hfloat
    | closed | unclosed | dangling => exact absurd rfl hkind
    | pair hk => exact .pair hk
    | single hk => exact .single hk
    | illegal hc => exact .illegal hc

end Mel
