import Mathlib.Algebra.Ring.Parity
import Mel.Proofs.CharClass
import Mel.Proofs.Quoted.Body

/-!
# Text read glyph by glyph

Read from the left, every text is a row of glyphs, and each of them spells one character. A cut between two
texts falls between two glyphs just if an even run of backslashes stands before it (`glyphs_append`). Behind an
odd run it takes a pair apart (`unescape_append`).
-/

namespace Mel.Quoted

/-! ## Glyphs -/

/-- A backslash with the character it hides, or any other character. Here a quote may be bare. A backslash is
bare only where the text ends. -/
inductive Glyph where
  | bare (c : Char)
  | pair (c : Char)
  deriving DecidableEq

namespace Glyph

def chars : Glyph → List Char
  | bare c => [c]
  | pair c => ['\\', c]

def value : Glyph → Char
  | bare c => c
  | pair c => (controls.lookup c).getD c

def isPair : Glyph → Bool
  | bare _ => false
  | pair _ => true

end Glyph

def glyphs : List Char → List Glyph
  | [] => []
  | [c] => [.bare c]
  | c :: d :: rest => if c = '\\' then .pair d :: glyphs rest else .bare c :: glyphs (d :: rest)

theorem glyphs_bare (c : Char) (text : List Char) (h : c ≠ '\\') :
    glyphs (c :: text) = .bare c :: glyphs text := by
  cases text <;> simp [glyphs, h]

theorem glyphs_pair (c : Char) (text : List Char) :
    glyphs ('\\' :: c :: text) = .pair c :: glyphs text := by
  simp [glyphs]

theorem flatMap_glyphs (text : List Char) : (glyphs text).flatMap Glyph.chars = text := by
  induction text using glyphs.induct with
  | case1 | case2 => rfl
  | case3 d rest ih => rw [glyphs_pair, List.flatMap_cons, ih]; rfl
  | case4 c d rest hc ih => rw [glyphs_bare _ _ hc, List.flatMap_cons, ih]; rfl

theorem length_add_countP (text : List Char) :
    (glyphs text).length + (glyphs text).countP Glyph.isPair = text.length := by
  induction text using glyphs.induct with
  | case1 | case2 => rfl
  | case3 d rest ih =>
    simp only [glyphs_pair, List.length_cons, List.countP_cons, Glyph.isPair, if_true]
    omega
  | case4 c d rest hc ih =>
    simp only [glyphs_bare _ _ hc, List.length_cons, List.countP_cons, Glyph.isPair] at ih ⊢
    simp only [Bool.false_eq_true, if_false]
    omega

theorem countP_eq_zero_iff (text : List Char) :
    (glyphs text).countP Glyph.isPair = 0 ↔ '\\' ∉ text.dropLast := by
  induction text using glyphs.induct with
  | case1 => simp [glyphs]
  | case2 c => simp [glyphs, Glyph.isPair]
  | case3 d rest => simp [glyphs_pair, Glyph.isPair]
  | case4 c d rest hc ih =>
    rw [glyphs_bare _ _ hc, List.dropLast_cons_cons, List.mem_cons, not_or, ← ih]
    simp [Glyph.isPair, Ne.symm hc]

/-! ## What the glyphs spell -/

theorem escaped_eq_lookup (c : Char) : escaped c = (controls.lookup c).getD c := by
  unfold escaped
  split_ifs with hn ht hr
  · rw [hn]; rfl
  · rw [ht]; rfl
  · rw [hr]; rfl
  · have hlookup : controls.lookup c = none := by
      rw [List.lookup_eq_none_iff]
      simp [controls, hn, ht, hr]
    rw [hlookup]; rfl

theorem unescapeChars_eq_map (text : List Char) : unescapeChars text = (glyphs text).map Glyph.value := by
  induction text using glyphs.induct with
  | case1 | case2 => rfl
  | case3 d rest ih =>
    rw [unescapeChars_pair, glyphs_pair, List.map_cons, ih, escaped_eq_lookup]
    rfl
  | case4 c d rest hc ih =>
    rw [unescapeChars_plain _ _ hc, glyphs_bare _ _ hc, List.map_cons, ih]
    rfl

theorem toList_unescape (text : String) : (unescape text).toList = (glyphs text.toList).map Glyph.value := by
  rw [unescape, String.toList_ofList, unescapeChars_eq_map]

theorem map_value_of_countP (text : List Char) (h : (glyphs text).countP Glyph.isPair = 0) :
    (glyphs text).map Glyph.value = text := by
  have hchars : (glyphs text).flatMap Glyph.chars = (glyphs text).map Glyph.value := by
    rw [List.countP_eq_zero] at h
    rw [List.map_eq_flatMap]
    apply List.flatMap_congr
    intro glyph hmem
    cases glyph with
    | bare c => rfl
    | pair c => exact absurd rfl (h _ hmem)
  rw [← hchars, flatMap_glyphs]

theorem length_unescape (text : String) :
    (unescape text).length + (glyphs text.toList).countP Glyph.isPair = text.length := by
  have h := length_add_countP text.toList
  rwa [← List.length_map (f := Glyph.value), ← toList_unescape, String.length_toList,
    String.length_toList] at h

theorem unescape_eq_self_iff (text : String) : unescape text = text ↔ '\\' ∉ text.toList.dropLast := by
  rw [← countP_eq_zero_iff]
  constructor
  · intro h
    have hlength := length_unescape text
    rw [h] at hlength
    omega
  · intro h
    apply String.toList_injective
    rw [toList_unescape, map_value_of_countP _ h]

/-! ## Runs of backslashes -/

def EndsIn (n : Nat) (text : List Char) : Prop :=
  ∃ front, front.getLast? ≠ some '\\' ∧ text = front ++ List.replicate n '\\'

def EndsOdd (text : List Char) : Prop := ∃ n, Odd n ∧ EndsIn n text

def EndsEven (text : List Char) : Prop := ∃ n, Even n ∧ EndsIn n text

theorem endsIn_iff (n : Nat) (text : List Char) :
    EndsIn n text ↔ (text.reverse.takeWhile (· = '\\')).length = n := by
  constructor
  · rintro ⟨front, hlast, rfl⟩
    have hstop : ¬ startsWith (· = '\\') front.reverse := by
      simpa [startsWith, Option.any_eq_true] using hlast
    rw [List.reverse_append, List.reverse_replicate, takeWhile_append_eq _ _ _ (by simp) hstop,
      List.length_replicate]
  · rintro rfl
    refine ⟨(text.reverse.dropWhile (· = '\\')).reverse, ?_, ?_⟩
    · have hstop := not_startsWith_dropWhile (· = '\\') text.reverse
      simpa [startsWith, Option.any_eq_true] using hstop
    · have hrun : text.reverse.takeWhile (· = '\\') =
          List.replicate (text.reverse.takeWhile (· = '\\')).length '\\' := by
        rw [List.eq_replicate_iff]
        exact ⟨rfl, fun c hc => by simpa using List.mem_takeWhile_imp hc⟩
      calc
        text = (text.reverse.takeWhile (· = '\\') ++ text.reverse.dropWhile (· = '\\')).reverse := by
          rw [List.takeWhile_append_dropWhile, List.reverse_reverse]
        _ = _ := by rw [hrun, List.reverse_append, List.reverse_replicate, List.length_replicate]

theorem endsHiding_iff (text : List Char) : endsHiding text = true ↔ EndsOdd text := by
  simp [EndsOdd, endsIn_iff, endsHiding, Nat.odd_iff]

theorem endsHiding_eq_false_iff (text : List Char) : endsHiding text = false ↔ EndsEven text := by
  simp [EndsEven, endsIn_iff, endsHiding, Nat.even_iff]

theorem endsHiding_concat (text : List Char) : endsHiding (text ++ ['\\']) = !endsHiding text := by
  simp only [endsHiding, List.reverse_append, List.reverse_singleton, List.singleton_append,
    List.takeWhile_cons, decide_true, if_true, List.length_cons]
  grind

theorem exists_front_of_endsHiding (text : List Char) (h : endsHiding text = true) :
    ∃ front, text = front ++ ['\\'] ∧ endsHiding front = false := by
  rcases List.eq_nil_or_concat text with rfl | ⟨front, c, rfl⟩
  · cases h
  · rw [List.concat_eq_append] at h ⊢
    by_cases hc : c = '\\'
    · subst hc
      rw [endsHiding_concat, Bool.not_eq_true'] at h
      exact ⟨front, rfl, h⟩
    · simp [endsHiding, hc] at h

/-! ## Cuts -/

theorem glyphs_append (front back : List Char) (h : endsHiding front = false) :
    glyphs (front ++ back) = glyphs front ++ glyphs back := by
  induction front using glyphs.induct with
  | case1 => rfl
  | case2 c =>
    have hc : c ≠ '\\' := by
      rintro rfl
      cases h
    rw [List.singleton_append, glyphs_bare _ _ hc]
    rfl
  | case3 d rest ih =>
    rw [endsHiding_pair] at h
    rw [List.cons_append, List.cons_append, glyphs_pair, glyphs_pair, ih h]
    rfl
  | case4 c d rest hc ih =>
    rw [endsHiding_plain _ _ hc] at h
    rw [List.cons_append, glyphs_bare _ _ hc, glyphs_bare _ _ hc, ih h]
    rfl

theorem unescape_append_of_even (front back : String) (h : endsHiding front.toList = false) :
    unescape (front ++ back) = unescape front ++ unescape back := by
  apply String.toList_injective
  simp only [String.toList_append, toList_unescape, glyphs_append _ _ h, List.map_append]

theorem unescape_pair (c : Char) (back : String) :
    unescape (String.ofList ['\\', c] ++ back) =
      String.singleton ((controls.lookup c).getD c) ++ unescape back := by
  apply String.toList_injective
  simp [toList_unescape, glyphs_pair, Glyph.value]

/-- A text can be cut behind an even run of backslashes, and its parts spell what they spell alone. Behind an odd
run the last backslash goes with the character after the cut, or stays as it is if there is none. So each pair
makes the text one character shorter, and without a pair it spells itself. -/
theorem unescape_append (a : String) :
    (¬ EndsOdd a.toList → ∀ b, unescape (a ++ b) = unescape a ++ unescape b) ∧
    (EndsOdd a.toList → ∃ front, a = front ++ "\\" ∧ unescape a = unescape front ++ "\\" ∧
      ∀ c b, unescape (a ++ (String.singleton c ++ b)) =
        unescape front ++ String.singleton ((controls.lookup c).getD c) ++ unescape b) ∧
    (unescape a).length + (glyphs a.toList).countP Glyph.isPair = a.length ∧
    (unescape a = a ↔ '\\' ∉ a.toList.dropLast) := by
  refine ⟨?_, ?_, length_unescape a, unescape_eq_self_iff a⟩
  · intro hodd b
    rw [← endsHiding_iff, Bool.not_eq_true] at hodd
    exact unescape_append_of_even a b hodd
  · intro hodd
    obtain ⟨chars, hchars, hfront⟩ := exists_front_of_endsHiding _ ((endsHiding_iff _).mpr hodd)
    have ha : a = String.ofList chars ++ "\\" := by
      apply String.toList_injective
      simp [hchars]
    have heven : endsHiding (String.ofList chars).toList = false := by rwa [String.toList_ofList]
    refine ⟨String.ofList chars, ha, ?_, ?_⟩
    · rw [ha, unescape_append_of_even _ _ heven]
      rfl
    · intro c b
      have hpair : a ++ (String.singleton c ++ b) = String.ofList chars ++ (String.ofList ['\\', c] ++ b) := by
        apply String.toList_injective
        simp [ha]
      rw [hpair, unescape_append_of_even _ _ heven, unescape_pair, String.append_assoc]

theorem unescape_append_torn :
    ¬ EndsOdd "x\\\\".toList ∧ unescape ("x\\\\" ++ "ny") = unescape "x\\\\" ++ unescape "ny" ∧
      EndsOdd "x\\\\\\".toList ∧ unescape "x\\\\\\" = unescape "x\\\\" ++ "\\" ∧
      unescape ("x\\\\\\" ++ (String.singleton 'n' ++ "y")) = unescape "x\\\\" ++ "\n" ++ unescape "y" := by
  have heven : ¬ EndsOdd "x\\\\".toList := by
    rw [← endsHiding_iff]
    decide
  have hodd : EndsOdd "x\\\\\\".toList := ⟨3, by decide, ['x'], by decide, rfl⟩
  obtain ⟨front, hfront, hend, hpair⟩ := (unescape_append "x\\\\\\").2.1 hodd
  obtain rfl : "x\\\\" = front := by
    apply String.toList_injective
    have hchars : ['x', '\\', '\\'] ++ ['\\'] = front.toList ++ ['\\'] := by
      simpa using congrArg String.toList hfront
    exact List.append_cancel_right hchars
  exact ⟨heven, (unescape_append "x\\\\").1 heven "ny", hodd, hend, hpair 'n' "y"⟩

end Mel.Quoted
