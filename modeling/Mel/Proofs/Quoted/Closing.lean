import Mel.Proofs.Quoted.Glyphs

/-!
# The closing quote, read from either end

`body` looks for the closing quote from the end of a literal and counts the backslashes before it. Read from the
left, that quote is the last glyph (`body_glyphs`), whatever the text is. It takes one byte, so no slice of a
literal fails.
-/

namespace Mel.Quoted

/-! ## The last glyph -/

def inside (literal : List Char) : List Char :=
  if literal.head? = some '"' then literal.tail else literal

theorem afterOpening_eq_inside (literal : List Char) : afterOpening literal = inside literal := by
  cases literal with
  | nil => rfl
  | cons c rest => by_cases h : c = '"' <;> simp [afterOpening, inside, h]

theorem toList_body (literal : String) : (body literal).toList = beforeClosing (inside literal.toList) := by
  rw [body, String.toList_ofList, bodyChars, afterOpening_eq_inside]

theorem getLast?_glyphs_quote (front : List Char) :
    (glyphs (front ++ ['"'])).getLast? = some (if endsHiding front then .pair '"' else .bare '"') := by
  cases h : endsHiding front with
  | false => simp [glyphs_append _ _ h, glyphs]
  | true =>
    obtain ⟨before, rfl, hbefore⟩ := exists_front_of_endsHiding front h
    simp [glyphs_append _ _ hbefore, glyphs]

theorem last_bare_iff (text : List Char) :
    (glyphs text).getLast? = some (.bare '"') ↔ ∃ front, endsHiding front = false ∧ text = front ++ ['"'] := by
  constructor
  · intro hlast
    obtain ⟨row, hrow⟩ := List.getLast?_eq_some_iff.mp hlast
    have htext : text = row.flatMap Glyph.chars ++ ['"'] := by
      rw [← flatMap_glyphs text, hrow, List.flatMap_append]
      rfl
    refine ⟨_, ?_, htext⟩
    rw [htext, getLast?_glyphs_quote] at hlast
    by_contra hhides
    simp [hhides] at hlast
  · rintro ⟨front, hfront, rfl⟩
    rw [getLast?_glyphs_quote, hfront]
    rfl

theorem beforeClosing_of_bare (inner : List Char) (h : (glyphs inner).getLast? = some (.bare '"')) :
    inner = beforeClosing inner ++ ['"'] := by
  obtain ⟨front, hfront, rfl⟩ := (last_bare_iff inner).mp h
  rw [beforeClosing_quote, hfront]
  rfl

theorem beforeClosing_of_not_bare (inner : List Char) (h : (glyphs inner).getLast? ≠ some (.bare '"')) :
    beforeClosing inner = inner := by
  by_cases hlast : inner.getLast? = some '"'
  · obtain ⟨front, rfl⟩ := List.getLast?_eq_some_iff.mp hlast
    rw [ne_eq, last_bare_iff] at h
    have hhides : endsHiding front = true := by
      by_contra hno
      exact h ⟨front, by simpa using hno, rfl⟩
    rw [beforeClosing_quote, if_pos hhides]
  · exact beforeClosing_of_last inner hlast

theorem beforeClosing_eq_self_iff (inner : List Char) :
    beforeClosing inner = inner ↔ (glyphs inner).getLast? ≠ some (.bare '"') := by
  refine ⟨?_, beforeClosing_of_not_bare inner⟩
  intro hself hbare
  have hlength := congrArg List.length (beforeClosing_of_bare inner hbare)
  rw [hself, List.length_append] at hlength
  simp at hlength

theorem exists_last_iff (inner : List Char) :
    (∃ c, inner = beforeClosing inner ++ [c]) ↔ (glyphs inner).getLast? = some (.bare '"') := by
  refine ⟨?_, fun hbare => ⟨'"', beforeClosing_of_bare inner hbare⟩⟩
  rintro ⟨c, hlast⟩
  by_contra hbare
  rw [beforeClosing_of_not_bare inner hbare] at hlast
  simp at hlast

/-! ## Slices -/

def byteCount (text : List Char) : Nat := (text.map Char.utf8Size).sum

/-- The slice of the first `n` bytes. It fails if it would end behind the text or within a character. -/
def takeBytes? : List Char → Nat → Option (List Char)
  | _, 0 => some []
  | [], _ + 1 => none
  | c :: rest, n + 1 =>
    if n + 1 < c.utf8Size then none else (takeBytes? rest (n + 1 - c.utf8Size)).map (c :: ·)

def dropLastByte? (text : List Char) : Option (List Char) :=
  if byteCount text = 0 then none else takeBytes? text (byteCount text - 1)

/-- Whether a backslash hides the quote at the end. There is no answer for a text that ends otherwise. -/
def hidesQuote? (inner : List Char) : Option Bool :=
  if inner.getLast? = some '"' then (dropLastByte? inner).map endsHiding else none

def slicedBody? (literal : List Char) : Option (List Char) :=
  if (inside literal).getLast? = some '"' then
    (hidesQuote? (inside literal)).bind fun hidden =>
      if hidden then some (inside literal) else dropLastByte? (inside literal)
  else some (inside literal)

theorem byteCount_append (front back : List Char) :
    byteCount (front ++ back) = byteCount front + byteCount back := by
  simp [byteCount]

theorem takeBytes?_append (front back : List Char) :
    takeBytes? (front ++ back) (byteCount front) = some front := by
  induction front with
  | nil => simp [byteCount, takeBytes?]
  | cons c front ih =>
    have hpos := c.utf8Size_pos
    have hcount : byteCount (c :: front) = c.utf8Size - 1 + byteCount front + 1 := by
      simp only [byteCount, List.map_cons, List.sum_cons]
      omega
    rw [hcount, List.cons_append, takeBytes?, if_neg (by omega),
      show c.utf8Size - 1 + byteCount front + 1 - c.utf8Size = byteCount front by omega, ih]
    rfl

theorem dropLastByte?_quote (front : List Char) : dropLastByte? (front ++ ['"']) = some front := by
  have hcount : byteCount (front ++ ['"']) = byteCount front + 1 := byteCount_append front ['"']
  rw [dropLastByte?, hcount, if_neg (by omega), Nat.add_sub_cancel, takeBytes?_append]

theorem slicedBody?_eq (literal : List Char) : slicedBody? literal = some (beforeClosing (inside literal)) := by
  generalize hinner : inside literal = inner
  by_cases hlast : inner.getLast? = some '"'
  · obtain ⟨front, rfl⟩ := List.getLast?_eq_some_iff.mp hlast
    simp only [slicedBody?, hinner, hidesQuote?, hlast, if_true, dropLastByte?_quote, Option.map_some,
      Option.bind_some, beforeClosing_quote]
    split <;> rfl
  · rw [slicedBody?, hinner, if_neg hlast, beforeClosing_of_last inner hlast]

/-! ## The two readings -/

/-- The body leaves out the last character just if that is a bare quote, and it is read without a slice that
fails. So it gives back what stands between two quotes unless the second one is hidden, and what stands behind
one quote unless that ends with a quote of its own. -/
theorem body_glyphs :
    (∀ literal : String,
      ((∃ c, inside literal.toList = (body literal).toList ++ [c]) ↔
        (glyphs (inside literal.toList)).getLast? = some (.bare '"')) ∧
      ((body literal).toList = inside literal.toList ↔
        (glyphs (inside literal.toList)).getLast? ≠ some (.bare '"')) ∧
      slicedBody? literal.toList = some (body literal).toList) ∧
    ∀ b : String,
      (body ("\"" ++ b ++ "\"") = b ↔ ¬ EndsOdd b.toList) ∧
      (body ("\"" ++ b) = b ↔ ¬ ∃ front : String, EndsEven front.toList ∧ b = front ++ "\"") := by
  constructor
  · intro literal
    rw [toList_body]
    exact ⟨exists_last_iff _, beforeClosing_eq_self_iff _, slicedBody?_eq _⟩
  intro b
  constructor
  · have hinside : inside ("\"" ++ b ++ "\"").toList = b.toList ++ ['"'] := by simp [inside]
    rw [← String.toList_inj, toList_body, hinside, beforeClosing_quote, ← endsHiding_iff]
    split <;> simp [*]
  · have hinside : inside ("\"" ++ b).toList = b.toList := by simp [inside]
    rw [← String.toList_inj, toList_body, hinside, beforeClosing_eq_self_iff, ne_eq, last_bare_iff, not_iff_not]
    constructor
    · rintro ⟨front, hfront, hb⟩
      refine ⟨String.ofList front, by rwa [String.toList_ofList, ← endsHiding_eq_false_iff], ?_⟩
      apply String.toList_injective
      simp [hb]
    · rintro ⟨front, hfront, rfl⟩
      exact ⟨front.toList, (endsHiding_eq_false_iff _).mpr hfront, by simp⟩

end Mel.Quoted
