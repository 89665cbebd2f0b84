import Mathlib.Data.List.TakeWhile
import Mel.CharClass

/-!
# Classes of characters and their runs

Which classes exclude each other, and what `takeWhile` makes of a run that goes on in the text after it.
-/

namespace Mel

/-! ## Classes that exclude each other -/

theorem isBlank_iff (c : Char) : isBlank c = true ↔ c = ' ' ∨ c = '\t' ∨ c = '\n' ∨ c = '\r' := by
  simp [isBlank, or_assoc]

theorem isLetter_of_isDigit (c : Char) (h : c.isDigit = true) : isLetter c = false := by
  have hne : c ≠ '_' := by
    rintro rfl
    simp at h
  have hupper : c.isUpper = decide ('A'.val ≤ c.val ∧ c.val ≤ 'Z'.val) := rfl
  have hlower : c.isLower = (decide ('a'.val ≤ c.val) && decide (c.val ≤ 'z'.val)) := rfl
  have halpha : isLetter c = (c.isUpper || c.isLower || decide (c = '_')) := rfl
  simp only [Char.isDigit, Bool.and_eq_true, decide_eq_true_eq] at h
  rw [halpha, hupper, hlower]
  grind

theorem isWordChar_of_isHexDigit (c : Char) (h : c.isHexDigit = true) : isWordChar c = true := by
  have hword : isWordChar c = (c.isUpper || c.isLower || decide (c = '_') || c.isDigit) := rfl
  have hupper : c.isUpper = decide ('A'.val ≤ c.val ∧ c.val ≤ 'Z'.val) := rfl
  have hlower : c.isLower = (decide ('a'.val ≤ c.val) && decide (c.val ≤ 'z'.val)) := rfl
  have hhex : c.isHexDigit = (c.isDigit || (decide ('a'.val ≤ c.val) && decide (c.val ≤ 'f'.val)) ||
      (decide ('A'.val ≤ c.val) && decide (c.val ≤ 'F'.val))) := rfl
  rw [hhex] at h
  rw [hword, hupper, hlower]
  grind

theorem isDigit_of_not_isWordChar (c : Char) (h : isWordChar c = false) : c.isDigit = false := by
  rw [isWordChar, Bool.or_eq_false_iff] at h
  exact h.2

theorem isHexDigit_of_not_isWordChar (c : Char) (h : isWordChar c = false) : c.isHexDigit = false := by
  rw [← Bool.not_eq_true] at h ⊢
  exact fun hhex => h (isWordChar_of_isHexDigit c hhex)

theorem isWordChar_of_isBlank (c : Char) (h : isBlank c = true) : isWordChar c = false := by
  rcases (isBlank_iff c).mp h with rfl | rfl | rfl | rfl <;> rfl

theorem isHexDigit_of_isBlank (c : Char) (h : isBlank c = true) : c.isHexDigit = false := by
  rcases (isBlank_iff c).mp h with rfl | rfl | rfl | rfl <;> rfl

theorem isDigit_of_isBlank (c : Char) (h : isBlank c = true) : c.isDigit = false := by
  rcases (isBlank_iff c).mp h with rfl | rfl | rfl | rfl <;> rfl

/-! ## Texts of one class -/

def Blank (text : List Char) : Prop := ∀ c ∈ text, isBlank c = true

theorem blank_nil : Blank [] := by simp [Blank]

theorem blank_append (v w : List Char) (hv : Blank v) (hw : Blank w) : Blank (v ++ w) := by
  intro c hc
  rcases List.mem_append.mp hc with hc | hc
  · exact hv c hc
  · exact hw c hc

def NoBlank (text : List Char) : Prop := ∀ c ∈ text, isBlank c = false

theorem noBlank_append (v w : List Char) (hv : NoBlank v) (hw : NoBlank w) : NoBlank (v ++ w) := by
  intro c hc
  rcases List.mem_append.mp hc with hc | hc
  · exact hv c hc
  · exact hw c hc

theorem noBlank_of_class (p : Char → Bool) (hp : ∀ c, isBlank c = true → p c = false) (text : List Char)
    (h : ∀ c ∈ text, p c = true) : NoBlank text := by
  intro c hc
  cases hb : isBlank c with
  | false => rfl
  | true =>
    have hpc := h c hc
    rw [hp c hb] at hpc
    exact hpc.symm

/-! ## Runs -/

def startsWith (p : Char → Bool) (text : List Char) : Prop := text.head?.any p = true

instance (p : Char → Bool) (text : List Char) : Decidable (startsWith p text) :=
  inferInstanceAs (Decidable (_ = _))

theorem startsWith_cons (p : Char → Bool) (c : Char) (text : List Char) :
    startsWith p (c :: text) ↔ p c = true := by
  simp [startsWith]

theorem startsWith_append (p : Char → Bool) (text more : List Char) (hne : text ≠ []) :
    startsWith p (text ++ more) ↔ startsWith p text := by
  obtain ⟨c, rest, rfl⟩ := List.exists_cons_of_ne_nil hne
  simp [startsWith]

theorem not_startsWith_nil (p : Char → Bool) : ¬ startsWith p [] := by
  simp [startsWith]

theorem takeWhile_eq_nil (p : Char → Bool) (text : List Char) :
    text.takeWhile p = [] ↔ ¬ startsWith p text := by
  cases text with
  | nil => simp [startsWith]
  | cons c text => by_cases h : p c = true <;> simp [startsWith, h]

theorem takeWhile_ne_nil (p : Char → Bool) (text : List Char) :
    text.takeWhile p ≠ [] ↔ startsWith p text := by
  rw [ne_eq, takeWhile_eq_nil, not_not]

theorem dropWhile_eq_self (p : Char → Bool) (text : List Char) (h : ¬ startsWith p text) :
    text.dropWhile p = text := by
  cases text with
  | nil => rfl
  | cons c text => simp_all [startsWith]

theorem not_startsWith_dropWhile (p : Char → Bool) (text : List Char) :
    ¬ startsWith p (text.dropWhile p) := by
  have h := List.head?_dropWhile_not p text
  unfold startsWith
  revert h
  cases (text.dropWhile p).head? <;> simp

theorem drop_length_takeWhile (p : Char → Bool) (text : List Char) :
    text.drop (text.takeWhile p).length = text.dropWhile p := by
  conv => lhs; arg 2; rw [← List.takeWhile_append_dropWhile (p := p) (l := text)]
  rw [List.drop_left]

theorem takeWhile_append_eq (p : Char → Bool) (run text : List Char) (hrun : ∀ c ∈ run, p c = true)
    (h : ¬ startsWith p text) : (run ++ text).takeWhile p = run := by
  rw [List.takeWhile_append_of_pos hrun, (takeWhile_eq_nil p text).mpr h, List.append_nil]

theorem dropWhile_append_eq (p : Char → Bool) (run text : List Char) (hrun : ∀ c ∈ run, p c = true)
    (h : ¬ startsWith p text) : (run ++ text).dropWhile p = text := by
  rw [List.dropWhile_append_of_pos hrun, dropWhile_eq_self p text h]

end Mel
