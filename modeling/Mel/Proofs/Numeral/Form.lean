import Mel.Numeral.Basic
import Mel.Proofs.CharClass

/-!
# The forms of a numeral

The grammar of decimal numerals, and what `ofText` makes of a numeral that some text follows: it reads the
numeral, and as much of the text as still belongs to it.
-/

namespace Mel.Numeral

/-! ## The grammar -/

def Digits (text : List Char) : Prop := ∀ c ∈ text, c.isDigit = true

inductive Exponent : List Char → Prop where
  | mk {letter sign : Char} {digits : List Char} : letter = 'e' ∨ letter = 'E' →
      sign = '+' ∨ sign = '-' → Digits digits → Exponent (letter :: sign :: digits)

/-- A point needs a digit on one side. Without a point there has to be an exponent. -/
inductive Float : List Char → Prop where
  | point {whole fraction exponent : List Char} : whole ≠ [] → Digits whole → Digits fraction →
      exponent = [] ∨ Exponent exponent → Float (whole ++ '.' :: fraction ++ exponent)
  | bare {fraction exponent : List Char} : fraction ≠ [] → Digits fraction →
      exponent = [] ∨ Exponent exponent → Float ('.' :: fraction ++ exponent)
  | scaled {whole exponent : List Char} : whole ≠ [] → Digits whole → Exponent exponent →
      Float (whole ++ exponent)

def StartsExponent (text : List Char) : Prop :=
  ∃ letter sign rest, (letter = 'e' ∨ letter = 'E') ∧ (sign = '+' ∨ sign = '-') ∧
    text = letter :: sign :: rest

theorem float_ne_nil (numeral : List Char) (h : Float numeral) : numeral ≠ [] := by
  cases h with
  | point => simp
  | bare => simp
  | scaled hne => simp [hne]

theorem noBlank_digits (digits : List Char) (h : Digits digits) : NoBlank digits :=
  noBlank_of_class _ isDigit_of_isBlank digits h

theorem noBlank_exponent (exponent : List Char) (h : exponent = [] ∨ Exponent exponent) :
    NoBlank exponent := by
  rcases h with rfl | ⟨hl, hs, hdigits⟩
  · simp [NoBlank]
  · intro c hc
    simp only [List.mem_cons] at hc
    rcases hc with rfl | rfl | hc
    · rcases hl with rfl | rfl <;> rfl
    · rcases hs with rfl | rfl <;> rfl
    · exact noBlank_digits _ hdigits c hc

theorem noBlank_float (numeral : List Char) (h : Float numeral) : NoBlank numeral := by
  have hdot : NoBlank ['.'] := by simp [NoBlank, isBlank]
  cases h with
  | point _ hw hf hx =>
    have hpoint := noBlank_append _ _ (noBlank_digits _ hw) (noBlank_append _ _ hdot (noBlank_digits _ hf))
    exact noBlank_append _ _ hpoint (noBlank_exponent _ hx)
  | bare _ hf hx =>
    exact noBlank_append _ _ (noBlank_append _ _ hdot (noBlank_digits _ hf)) (noBlank_exponent _ hx)
  | scaled _ hw hx => exact noBlank_append _ _ (noBlank_digits _ hw) (noBlank_exponent _ (.inr hx))

/-! ## The parts that `ofText` reads -/

theorem digits_takeWhile (text : List Char) : Digits (text.takeWhile Char.isDigit) :=
  fun _ hc => List.mem_takeWhile_imp hc

theorem startsExponent_iff (letter sign : Char) (rest : List Char) :
    StartsExponent (letter :: sign :: rest) ↔
      (letter = 'e' ∨ letter = 'E') ∧ (sign = '+' ∨ sign = '-') := by
  constructor
  · rintro ⟨l, s, r, hl, hs, heq⟩
    obtain ⟨rfl, rfl, rfl⟩ : letter = l ∧ sign = s ∧ rest = r := by simpa using heq
    exact ⟨hl, hs⟩
  · rintro ⟨hl, hs⟩
    exact ⟨letter, sign, rest, hl, hs, rfl⟩

def isSign (c : Char) : Bool := c = '+' || c = '-'

theorem startsExponent_append_iff (text more : List Char) (hne : text ≠ []) :
    StartsExponent (text ++ more) ↔
      StartsExponent text ∨ ((text = ['e'] ∨ text = ['E']) ∧ startsWith isSign more) := by
  match text with
  | [c] =>
    cases more with
    | nil => simp [StartsExponent, startsWith]
    | cons sign rest =>
      have hone : ¬ StartsExponent [c] := by simp [StartsExponent]
      simp [startsExponent_iff, hone, startsWith, isSign]
  | letter :: sign :: rest => simp [startsExponent_iff]

theorem exponentOf_cons (letter sign : Char) (rest : List Char) (hl : letter = 'e' ∨ letter = 'E')
    (hs : sign = '+' ∨ sign = '-') :
    exponentOf (letter :: sign :: rest) = letter :: sign :: rest.takeWhile Char.isDigit := by
  rw [exponentOf, if_pos (by simpa using ⟨hl, hs⟩)]

theorem exponentOf_of_not_starts (text : List Char) (h : ¬ StartsExponent text) : exponentOf text = [] := by
  match text with
  | [] | [_] => rfl
  | letter :: sign :: rest =>
    rw [startsExponent_iff] at h
    rw [exponentOf, if_neg (by simpa using h)]

theorem exponentOf_eq_nil_iff (text : List Char) : exponentOf text = [] ↔ ¬ StartsExponent text := by
  refine ⟨?_, exponentOf_of_not_starts text⟩
  rintro hnil ⟨letter, sign, rest, hl, hs, rfl⟩
  simp [exponentOf_cons _ _ _ hl hs] at hnil

theorem exponent_exponentOf (text : List Char) : exponentOf text = [] ∨ Exponent (exponentOf text) := by
  by_cases h : StartsExponent text
  · obtain ⟨letter, sign, rest, hl, hs, rfl⟩ := h
    rw [exponentOf_cons _ _ _ hl hs]
    exact .inr (.mk hl hs (digits_takeWhile rest))
  · exact .inl (exponentOf_of_not_starts text h)

theorem exponentOf_append (exponent text : List Char) (h : Exponent exponent) :
    exponentOf (exponent ++ text) = exponent ++ text.takeWhile Char.isDigit := by
  obtain ⟨hl, hs, hdigits⟩ := h
  rw [List.cons_append, List.cons_append, exponentOf_cons _ _ _ hl hs,
    List.takeWhile_append_of_pos hdigits]
  rfl

theorem not_digit_exponent (exponent text : List Char) (h : Exponent exponent) :
    ¬ startsWith Char.isDigit (exponent ++ text) := by
  obtain ⟨rfl | rfl, -, -⟩ := h <;> simp [startsWith]

theorem fractionOf_exponent (exponent text : List Char) (h : Exponent exponent) :
    fractionOf (exponent ++ text) = [] := by
  obtain ⟨rfl | rfl, -, -⟩ := h <;> simp [fractionOf]

theorem fractionOf_point (fraction text : List Char) (h : Digits fraction) :
    fractionOf ('.' :: (fraction ++ text)) = '.' :: (fraction ++ text.takeWhile Char.isDigit) := by
  rw [fractionOf, if_pos rfl, List.takeWhile_append_of_pos h]

theorem fractionOf_eq_nil_iff (text : List Char) : fractionOf text = [] ↔ text.head? ≠ some '.' := by
  cases text with
  | nil => simp [fractionOf]
  | cons c rest => by_cases h : c = '.' <;> simp [fractionOf, h]

theorem fractionOf_cases (text : List Char) :
    fractionOf text = [] ∨ ∃ digits, Digits digits ∧ fractionOf text = '.' :: digits := by
  cases text with
  | nil => exact .inl rfl
  | cons c rest =>
    by_cases h : c = '.'
    · exact .inr ⟨rest.takeWhile Char.isDigit, digits_takeWhile rest, by simp [fractionOf, h]⟩
    · exact .inl (by simp [fractionOf, h])

/-! ## Numerals that text follows -/

theorem ofText_digits (digits text : List Char) (h : Digits digits) :
    ofText (digits ++ text) = { ofText text with whole := digits ++ (ofText text).whole } := by
  simp [ofText, List.takeWhile_append_of_pos h, List.dropWhile_append_of_pos h]

theorem ofText_point (whole fraction text : List Char) (hw : Digits whole) (hf : Digits fraction) :
    ofText (whole ++ '.' :: (fraction ++ text)) =
      ⟨whole, '.' :: (fraction ++ text.takeWhile Char.isDigit), exponentOf (text.dropWhile Char.isDigit)⟩ := by
  have hstop : ¬ startsWith Char.isDigit ('.' :: (fraction ++ text)) := by simp [startsWith]
  have hrest : (fraction ++ text).drop (fraction ++ text.takeWhile Char.isDigit).length =
      text.dropWhile Char.isDigit := by
    rw [List.length_append, ← List.drop_drop, List.drop_left, drop_length_takeWhile]
  simp only [ofText, takeWhile_append_eq _ _ _ hw hstop, dropWhile_append_eq _ _ _ hw hstop,
    fractionOf_point _ _ hf, List.length_cons, List.drop_succ_cons, hrest]

theorem ofText_scaled (whole exponent text : List Char) (hw : Digits whole) (hx : Exponent exponent) :
    ofText (whole ++ (exponent ++ text)) =
      ⟨whole, [], exponent ++ text.takeWhile Char.isDigit⟩ := by
  have hstop := not_digit_exponent exponent text hx
  simp only [ofText, takeWhile_append_eq _ _ _ hw hstop, dropWhile_append_eq _ _ _ hw hstop,
    fractionOf_exponent _ _ hx, List.length_nil, List.drop_zero, exponentOf_append _ _ hx]

theorem chars_ofText_eq_nil_iff (text : List Char) :
    (ofText text).chars = [] ↔
      ¬ startsWith Char.isDigit text ∧ text.head? ≠ some '.' ∧ ¬ StartsExponent text := by
  rw [chars, List.append_eq_nil_iff, List.append_eq_nil_iff, and_assoc]
  simp only [ofText, takeWhile_eq_nil]
  -- Each part is read where the parts before it ended, so an empty part moves nothing.
  refine and_congr_right fun hw => ?_
  rw [dropWhile_eq_self _ _ hw, fractionOf_eq_nil_iff]
  refine and_congr_right fun hf => ?_
  rw [(fractionOf_eq_nil_iff text).mpr hf, List.length_nil, List.drop_zero, exponentOf_eq_nil_iff]

theorem integer_append (digits text : List Char) (h : Digits digits) :
    ∃ more, (ofText (digits ++ text)).chars = digits ++ more ∧
      (more = [] → (ofText (digits ++ text)).kind = .integer) ∧
      (more ≠ [] ↔ startsWith Char.isDigit text ∨ text.head? = some '.' ∨ StartsExponent text) := by
  refine ⟨(ofText text).chars, ?_, ?_, ?_⟩
  · simp [ofText_digits _ _ h, chars]
  · intro hnil
    simp only [chars, List.append_eq_nil_iff] at hnil
    simp [ofText_digits _ _ h, kind, hnil]
  · rw [ne_eq, chars_ofText_eq_nil_iff]
    grind

/-- The letter of an exponent is the only letter a numeral can have. -/
def HasExponent (numeral : List Char) : Prop := 'e' ∈ numeral ∨ 'E' ∈ numeral

theorem not_hasExponent_digits (digits : List Char) (h : Digits digits) : ¬ HasExponent digits := by
  rintro (he | he)
  · exact absurd (h _ he) (by decide)
  · exact absurd (h _ he) (by decide)

theorem hasExponent_append (front exponent : List Char) (h : Exponent exponent) :
    HasExponent (front ++ exponent) := by
  obtain ⟨rfl | rfl, -, -⟩ := h <;> simp [HasExponent]

theorem point_append (whole fraction text : List Char) (hw : Digits whole) (hf : Digits fraction) :
    ∃ more, (ofText (whole ++ '.' :: fraction ++ text)).chars = whole ++ '.' :: fraction ++ more ∧
      (ofText (whole ++ '.' :: fraction ++ text)).kind = .float ∧
      (more ≠ [] ↔ startsWith Char.isDigit text ∨ StartsExponent text) := by
  refine ⟨text.takeWhile Char.isDigit ++ exponentOf (text.dropWhile Char.isDigit), ?_, ?_, ?_⟩
  · simp [ofText_point _ _ _ hw hf, chars]
  · simp [ofText_point _ _ _ hw hf, kind]
  · by_cases h : startsWith Char.isDigit text
    · have hne := (takeWhile_ne_nil _ _).mpr h
      simp [hne, h]
    · simp [(takeWhile_eq_nil _ _).mpr h, dropWhile_eq_self _ _ h, exponentOf_eq_nil_iff, h]

theorem exponent_append (whole fraction exponent text : List Char) (hw : Digits whole)
    (hf : fraction = [] ∨ ∃ digits, Digits digits ∧ fraction = '.' :: digits) (hx : Exponent exponent) :
    (ofText (whole ++ fraction ++ exponent ++ text)).chars =
        whole ++ fraction ++ exponent ++ text.takeWhile Char.isDigit ∧
      (ofText (whole ++ fraction ++ exponent ++ text)).kind = .float := by
  have hne : exponent ≠ [] := by
    rintro rfl
    cases hx
  rcases hf with rfl | ⟨digits, hd, rfl⟩
  · simp [ofText_scaled _ _ _ hw hx, chars, kind, hne]
  · have hstop := not_digit_exponent exponent text hx
    simp [ofText_point _ _ _ hw hd, chars, kind, (takeWhile_eq_nil _ _).mpr hstop,
      dropWhile_eq_self _ _ hstop, exponentOf_append _ _ hx]

theorem float_point_append (whole fraction exponent text : List Char) (hw : Digits whole)
    (hf : Digits fraction) (hx : exponent = [] ∨ Exponent exponent) :
    ∃ more, (ofText (whole ++ '.' :: fraction ++ exponent ++ text)).chars =
        whole ++ '.' :: fraction ++ exponent ++ more ∧
      (ofText (whole ++ '.' :: fraction ++ exponent ++ text)).kind = .float ∧
      (more ≠ [] ↔ startsWith Char.isDigit text ∨
        (¬ HasExponent (whole ++ '.' :: fraction ++ exponent) ∧ StartsExponent text)) := by
  rcases hx with rfl | hx
  · have hno : ¬ HasExponent (whole ++ '.' :: fraction) := by
      have := not_hasExponent_digits _ hw
      have := not_hasExponent_digits _ hf
      simp_all [HasExponent]
    simpa [hno] using point_append whole fraction text hw hf
  · obtain ⟨hchars, hkind⟩ :=
      exponent_append whole ('.' :: fraction) exponent text hw (.inr ⟨fraction, hf, rfl⟩) hx
    have hhas := hasExponent_append (whole ++ '.' :: fraction) exponent hx
    refine ⟨_, hchars, hkind, ?_⟩
    simp only [takeWhile_ne_nil, hhas, not_true, false_and, or_false]

theorem float_scaled_append (whole exponent text : List Char) (hw : Digits whole) (hx : Exponent exponent) :
    ∃ more, (ofText (whole ++ exponent ++ text)).chars = whole ++ exponent ++ more ∧
      (ofText (whole ++ exponent ++ text)).kind = .float ∧
      (more ≠ [] ↔ startsWith Char.isDigit text ∨
        (¬ HasExponent (whole ++ exponent) ∧ StartsExponent text)) := by
  obtain ⟨hchars, hkind⟩ := exponent_append whole [] exponent text hw (.inl rfl) hx
  simp only [List.append_nil] at hchars hkind
  have hhas := hasExponent_append whole exponent hx
  refine ⟨_, hchars, hkind, ?_⟩
  simp only [takeWhile_ne_nil, hhas, not_true, false_and, or_false]

theorem float_append (numeral text : List Char) (h : Float numeral) :
    ∃ more, (ofText (numeral ++ text)).chars = numeral ++ more ∧
      (ofText (numeral ++ text)).kind = .float ∧
      (more ≠ [] ↔ startsWith Char.isDigit text ∨ (¬ HasExponent numeral ∧ StartsExponent text)) := by
  cases h with
  | @point whole fraction exponent _ hw hf hx =>
    exact float_point_append whole fraction exponent text hw hf hx
  | @bare fraction exponent _ hf hx =>
    exact float_point_append [] fraction exponent text (by simp [Digits]) hf hx
  | @scaled whole exponent _ hw hx => exact float_scaled_append whole exponent text hw hx

/-! ## What `ofText` reads is a numeral -/

theorem isPrefix_fractionOf (text : List Char) : fractionOf text <+: text := by
  cases text with
  | nil => exact List.prefix_rfl
  | cons c rest => by_cases h : c = '.' <;> simp [fractionOf, h, List.takeWhile_prefix]

theorem isPrefix_exponentOf (text : List Char) : exponentOf text <+: text := by
  by_cases h : StartsExponent text
  · obtain ⟨letter, sign, rest, hl, hs, rfl⟩ := h
    simp [exponentOf_cons _ _ _ hl hs, List.takeWhile_prefix]
  · simp [exponentOf_of_not_starts text h]

theorem ofText_split (text : List Char) : ∃ after, text = (ofText text).chars ++ after := by
  obtain ⟨after, hafter⟩ := isPrefix_exponentOf
    ((text.dropWhile Char.isDigit).drop (fractionOf (text.dropWhile Char.isDigit)).length)
  refine ⟨after, ?_⟩
  simp only [chars, ofText, List.append_assoc]
  rw [hafter, List.prefix_iff_eq_append.mp (isPrefix_fractionOf _), List.takeWhile_append_dropWhile]

def Form (numeral : Numeral) : Prop :=
  (numeral.kind = .integer ∧ numeral.chars ≠ [] ∧ Digits numeral.chars) ∨
    (numeral.kind = .float ∧ Float numeral.chars)

theorem form_of_whole (whole fraction exponent : List Char) (hne : whole ≠ []) (hw : Digits whole)
    (hf : fraction = [] ∨ ∃ digits, Digits digits ∧ fraction = '.' :: digits)
    (hx : exponent = [] ∨ Exponent exponent) : Form ⟨whole, fraction, exponent⟩ := by
  rcases hf with rfl | ⟨digits, hd, rfl⟩
  · rcases hx with rfl | hx
    · exact .inl ⟨rfl, by simpa [chars] using hne, by simpa [chars] using hw⟩
    · have hkind : kind ⟨whole, [], exponent⟩ = .float := by
        obtain ⟨-, -, -⟩ := hx
        rfl
      exact .inr ⟨hkind, by simpa [chars] using Float.scaled hne hw hx⟩
  · exact .inr ⟨rfl, .point hne hw hd hx⟩

theorem form_ofText (text : List Char)
    (h : startsWith Char.isDigit text ∨ ∃ rest, text = '.' :: rest ∧ startsWith Char.isDigit rest) :
    Form (ofText text) := by
  rcases h with h | ⟨rest, rfl, h⟩
  · have hne := (takeWhile_ne_nil _ _).mpr h
    exact form_of_whole _ _ _ hne (digits_takeWhile text) (fractionOf_cases _) (exponent_exponentOf _)
  · have hne := (takeWhile_ne_nil _ _).mpr h
    have hpoint := ofText_point [] [] rest (by simp [Digits]) (by simp [Digits])
    simp only [List.nil_append] at hpoint
    rw [hpoint]
    exact .inr ⟨rfl, .bare hne (digits_takeWhile rest) (exponent_exponentOf _)⟩

end Mel.Numeral
