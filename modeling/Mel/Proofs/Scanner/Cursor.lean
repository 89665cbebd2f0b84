import Mathlib.Data.List.Basic
import Mathlib.Data.List.Chain
import Mel.Proofs.Scanner.Resume

/-!
# A cursor that moves one character at a time

A scanner can be kept as an index into the whole text. It is then moved one character after another, on tests that
were made on characters before, and it cuts its literals out by their indices. So here a move may go wrong: a cut
may be out of bounds, and a loop may get no nearer to the end. `Passes` says that a move does not, and what it
moves over.
-/

namespace Mel

/-! ## The cursor -/

structure Cursor where
  chars : List Char
  position : Nat
  readPosition : Nat
  current : Option Char
  deriving DecidableEq

namespace Cursor

/-- Goes to the read position. At the end of the text it is pinned there. -/
def advance (cursor : Cursor) : Cursor :=
  let position := min cursor.readPosition cursor.chars.length
  { chars := cursor.chars
    position := position
    readPosition := position + 1
    current := cursor.chars[cursor.readPosition]? }

def ofText (text : String) : Cursor := advance ⟨text.toList, 0, 0, none⟩

def peek (cursor : Cursor) : Option Char := cursor.chars[cursor.readPosition]?

/-- The characters from `start` up to the position. It fails if they are not all there. -/
def slice? (cursor : Cursor) (start : Nat) : Option (List Char) :=
  if start ≤ cursor.position ∧ cursor.position ≤ cursor.chars.length then
    some ((cursor.chars.take cursor.position).drop start)
  else none

def left (cursor : Cursor) : Nat := cursor.chars.length - cursor.position

def scanner (cursor : Cursor) : Scanner := ⟨cursor.position, cursor.chars.drop cursor.position⟩

structure Sound (cursor : Cursor) : Prop where
  position_le : cursor.position ≤ cursor.chars.length
  readPosition_eq : cursor.readPosition = cursor.position + 1
  current_eq : cursor.current = cursor.chars[cursor.position]?
  current_eq_none_iff : cursor.current = none ↔ cursor.position = cursor.chars.length

theorem sound_advance (cursor : Cursor) : cursor.advance.Sound := by
  have hcurrent : cursor.advance.current = cursor.chars[cursor.advance.position]? := by
    by_cases h : cursor.readPosition ≤ cursor.chars.length
    · simp [advance, Nat.min_eq_left h]
    · rw [not_le] at h
      simp [advance, h.le]
  have hle : cursor.advance.position ≤ cursor.chars.length := Nat.min_le_right _ _
  refine ⟨hle, rfl, hcurrent, ?_⟩
  rw [hcurrent, List.getElem?_eq_none_iff]
  exact ⟨hle.antisymm, ge_of_eq⟩

theorem sound_ofText (text : String) : (ofText text).Sound := sound_advance _

theorem advance_end (cursor : Cursor) (h : cursor.Sound) (hend : cursor.position = cursor.chars.length) :
    cursor.advance = cursor := by
  have hcurrent := h.current_eq_none_iff.mpr hend
  have hread := h.readPosition_eq
  obtain ⟨chars, position, readPosition, current⟩ := cursor
  simp only at hend hcurrent hread
  subst hend hcurrent hread
  simp [advance]

/-! ### What is behind and what is ahead -/

def between (front back : List Char) : Cursor := ⟨front ++ back, front.length, front.length + 1, back.head?⟩

theorem ofText_eq (text : String) : ofText text = between [] text.toList := by
  simp [ofText, advance, between, List.head?_eq_getElem?]

theorem advance_between (front back : List Char) (c : Char) :
    (between front (c :: back)).advance = between (front ++ [c]) back := by
  have hcurrent : (front ++ c :: back)[front.length + 1]? = back.head? := by
    rw [List.getElem?_append_right (by omega), Nat.add_sub_cancel_left, List.getElem?_cons_succ,
      List.head?_eq_getElem?]
  simp [advance, between, hcurrent]

theorem peek_between (front back : List Char) : (between front back).peek = back[1]? := by
  simp only [peek, between]
  rw [List.getElem?_append_right (by omega), Nat.add_sub_cancel_left]

theorem scanner_between (front back : List Char) : (between front back).scanner = ⟨front.length, back⟩ := by
  simp [scanner, between]

theorem left_between (front back : List Char) : (between front back).left = back.length := by
  simp [left, between]

theorem slice?_between (front chars back : List Char) :
    (between (front ++ chars) back).slice? front.length = some chars := by
  have hbounds : front.length ≤ (front ++ chars).length ∧
      (front ++ chars).length ≤ (front ++ chars ++ back).length := by simp
  rw [slice?, between, if_pos hbounds, List.take_left, List.drop_left]

end Cursor

/-! ## Moves -/

/-- What a cursor went through. -/
structure Course where
  cursor : Cursor
  /-- All cursors before this one, the latest first. -/
  passed : List Cursor
  /-- Where each slice started, and the cursor it was cut with. -/
  slices : List (Nat × Cursor)

namespace Course

def ofText (text : String) : Course := ⟨.ofText text, [], []⟩

def step (course : Course) : Course :=
  { course with cursor := course.cursor.advance, passed := course.cursor :: course.passed }

def record (course : Course) (start : Nat) : Course :=
  { course with slices := (start, course.cursor) :: course.slices }

end Course

/-- A move fails where a slice is out of bounds, or a loop does not get nearer to the end. -/
abbrev Move := StateT Course Option

namespace Move

def advance : Move Unit := modify Course.step

def current : Move (Option Char) := return (← get).cursor.current

def peek : Move (Option Char) := return (← get).cursor.peek

def slice (start : Nat) : Move String := fun course =>
  (course.cursor.slice? start).map fun chars => (String.ofList chars, course.record start)

def cut {α : Type} (move : Move α) : Move (α × String) := do
  let start := (← get).cursor.position
  let a ← move
  return (a, ← slice start)

/-- Goes round until a round says that it is the last. A round before that has to get nearer to the end of the
text. -/
def loop (round : Move Bool) (course : Course) : Option (Unit × Course) :=
  match round course with
  | none => none
  | some (false, after) => some ((), after)
  | some (true, after) => if after.cursor.left < course.cursor.left then loop round after else none
termination_by course.cursor.left

def skipOne (p : Char → Bool) : Move Bool := do
  if (← current).any p then
    advance
    return true
  else return false

def skipWhile (p : Char → Bool) : Move Unit := loop (skipOne p)

variable {α β : Type}

theorem bind_eq (move : Move α) (next : α → Move β) (course : Course) :
    (move >>= next) course = (move course).bind fun moved => next moved.1 moved.2 := rfl

theorem current_bind (next : Option Char → Move α) (course : Course) :
    (current >>= next) course = next course.cursor.current course := rfl

end Move

/-! ## Safe courses -/

/-- The cursor was moved by single steps from the start of the text. At every place it was in, its fields agreed,
and it would have stayed at the end of the text. Every slice had a character and was within the text. -/
structure Course.Safe (text : String) (course : Course) : Prop where
  chain : List.IsChain (fun later earlier => later = earlier.advance) (course.cursor :: course.passed)
  start : (course.cursor :: course.passed).getLast? = some (Cursor.ofText text)
  sound : ∀ cursor ∈ course.cursor :: course.passed, cursor.Sound ∧ cursor.chars = text.toList ∧
    (cursor.position = cursor.chars.length → cursor.advance = cursor)
  slices : ∀ slice ∈ course.slices, slice.1 < slice.2.position ∧ slice.2.position ≤ slice.2.chars.length

structure Course.At (text : String) (front back : List Char) (course : Course) : Prop where
  safe : course.Safe text
  cursor_eq : course.cursor = .between front back

open Course

theorem at_ofText (text : String) : At text [] text.toList (.ofText text) := by
  refine ⟨⟨.singleton _, rfl, ?_, by simp [ofText]⟩, Cursor.ofText_eq text⟩
  intro cursor hcursor
  obtain rfl : cursor = Cursor.ofText text := by simpa [ofText] using hcursor
  exact ⟨Cursor.sound_ofText text, rfl, Cursor.advance_end _ (Cursor.sound_ofText text)⟩

theorem safe_step (text : String) (course : Course) (h : course.Safe text) : Safe text course.step := by
  refine ⟨h.chain.cons_cons rfl, h.start, ?_, h.slices⟩
  rintro cursor hcursor
  rcases List.mem_cons.mp hcursor with rfl | hcursor
  · have hsound := Cursor.sound_advance course.cursor
    have hchars : course.cursor.chars = text.toList := (h.sound course.cursor List.mem_cons_self).2.1
    exact ⟨hsound, hchars, Cursor.advance_end _ hsound⟩
  · exact h.sound cursor hcursor

theorem safe_record (text : String) (course : Course) (start : Nat) (h : course.Safe text)
    (hstart : start < course.cursor.position) : Safe text (course.record start) := by
  have hposition := (h.sound course.cursor List.mem_cons_self).1.position_le
  refine ⟨h.chain, h.start, h.sound, ?_⟩
  rintro slice hslice
  rcases List.mem_cons.mp hslice with rfl | hslice
  · exact ⟨hstart, hposition⟩
  · exact h.slices slice hslice

/-! ## What a move passes -/

/-- With `chars ++ after` ahead the move goes over `chars`, gives `a`, and stays safe. -/
def Passes {α : Type} (move : Move α) (chars after : List Char) (a : α) : Prop :=
  ∀ text front course, At text front (chars ++ after) course →
    ∃ final, move course = some (a, final) ∧ At text (front ++ chars) after final

variable {α β : Type}

theorem passes_pure (after : List Char) (a : α) : Passes (pure a) [] after a := by
  intro text front course hat
  refine ⟨course, rfl, ?_⟩
  rwa [List.append_nil]

theorem passes_bind (move : Move α) (next : α → Move β) (chars more after : List Char) (a : α) (b : β)
    (h : Passes move chars (more ++ after) a) (hnext : Passes (next a) more after b) :
    Passes (move >>= next) (chars ++ more) after b := by
  intro text front course hat
  rw [List.append_assoc] at hat
  obtain ⟨middle, hmove, hmiddle⟩ := h text front course hat
  obtain ⟨final, hfinal, hat⟩ := hnext text _ middle hmiddle
  refine ⟨final, ?_, by rwa [← List.append_assoc]⟩
  rw [Move.bind_eq, hmove, Option.bind_some, hfinal]

theorem passes_return (move : Move α) (f : α → β) (chars after : List Char) (a : α) (h : Passes move chars after a) :
    Passes (do return f (← move)) chars after (f a) := by
  have hbind := passes_bind move (fun a => pure (f a)) chars [] after a (f a) h (passes_pure after (f a))
  rwa [List.append_nil] at hbind

theorem passes_advance (c : Char) (after : List Char) : Passes Move.advance [c] after () := by
  intro text front course hat
  refine ⟨course.step, rfl, safe_step text course hat.safe, ?_⟩
  rw [step, hat.cursor_eq, List.singleton_append, Cursor.advance_between]

theorem passes_advance_end : Passes Move.advance [] [] () := by
  intro text front course hat
  refine ⟨course.step, rfl, safe_step text course hat.safe, ?_⟩
  have hend : course.cursor.position = course.cursor.chars.length := by simp [hat.cursor_eq, Cursor.between]
  have hstay := (hat.safe.sound course.cursor List.mem_cons_self).2.2 hend
  rw [step, hstay, hat.cursor_eq, List.append_nil, List.append_nil]

theorem passes_current (next : Option Char → Move α) (chars after : List Char) (a : α)
    (h : Passes (next (chars ++ after).head?) chars after a) : Passes (Move.current >>= next) chars after a := by
  intro text front course hat
  rw [Move.current_bind, hat.cursor_eq]
  exact h text front course hat

theorem passes_peek (next : Option Char → Move α) (chars after : List Char) (a : α)
    (h : Passes (next (chars ++ after)[1]?) chars after a) : Passes (Move.peek >>= next) chars after a := by
  intro text front course hat
  have hpeek : (Move.peek >>= next) course = next course.cursor.peek course := rfl
  rw [hpeek, hat.cursor_eq, Cursor.peek_between]
  exact h text front course hat

theorem passes_cut (move : Move α) (chars after : List Char) (a : α) (h : Passes move chars after a)
    (hne : chars ≠ []) : Passes move.cut chars after (a, String.ofList chars) := by
  intro text front course hat
  obtain ⟨final, hmove, hfinal⟩ := h text front course hat
  have hstart : course.cursor.position = front.length := by rw [hat.cursor_eq]; rfl
  have hslice : final.cursor.slice? front.length = some chars := by
    rw [hfinal.cursor_eq, Cursor.slice?_between]
  refine ⟨final.record front.length, ?_, ?_, hfinal.cursor_eq⟩
  · have hcut : move.cut course = (move course).bind fun moved =>
        (Move.slice course.cursor.position moved.2).bind fun sliced => some ((moved.1, sliced.1), sliced.2) := rfl
    rw [hcut, hmove, hstart]
    simp [Move.slice, hslice]
  · have hpos := List.length_pos_iff.mpr hne
    apply safe_record text final front.length hfinal.safe
    simp only [hfinal.cursor_eq, Cursor.between, List.length_append]
    omega

/-! ### Loops -/

theorem passes_loop_last (round : Move Bool) (chars after : List Char) (h : Passes round chars after false) :
    Passes (Move.loop round) chars after () := by
  intro text front course hat
  obtain ⟨final, hround, hfinal⟩ := h text front course hat
  refine ⟨final, ?_, hfinal⟩
  rw [Move.loop, hround]

theorem passes_loop_again (round : Move Bool) (chars more after : List Char) (hne : chars ≠ [])
    (h : Passes round chars (more ++ after) true) (hmore : Passes (Move.loop round) more after ()) :
    Passes (Move.loop round) (chars ++ more) after () := by
  intro text front course hat
  rw [List.append_assoc] at hat
  obtain ⟨middle, hround, hmiddle⟩ := h text front course hat
  obtain ⟨final, hloop, hfinal⟩ := hmore text _ middle hmiddle
  refine ⟨final, ?_, by rwa [← List.append_assoc]⟩
  have hnearer : middle.cursor.left < course.cursor.left := by
    have hpos := List.length_pos_iff.mpr hne
    rw [hmiddle.cursor_eq, hat.cursor_eq, Cursor.left_between, Cursor.left_between]
    simp only [List.length_append]
    omega
  rw [Move.loop, hround]
  simp only [hnearer, if_true, hloop]

theorem passes_skipWhile (p : Char → Bool) (run after : List Char) (hrun : ∀ c ∈ run, p c = true)
    (hstop : ¬ startsWith p after) : Passes (Move.skipWhile p) run after () := by
  induction run with
  | nil =>
    apply passes_loop_last
    apply passes_current
    rw [List.nil_append, if_neg (show ¬ after.head?.any p = true from hstop)]
    exact passes_pure after false
  | cons c run ih =>
    rw [List.forall_mem_cons] at hrun
    refine passes_loop_again _ [c] run after (by simp) ?_ (ih hrun.2)
    apply passes_current
    rw [List.singleton_append, List.head?_cons, Option.any_some, if_pos hrun.1]
    exact passes_return _ (fun _ => true) [c] _ () (passes_advance c _)

theorem passes_skipWhile_takeWhile (p : Char → Bool) (text : List Char) :
    Passes (Move.skipWhile p) (text.takeWhile p) (text.dropWhile p) () :=
  passes_skipWhile p _ _ (fun _ hc => List.mem_takeWhile_imp hc) (not_startsWith_dropWhile p text)

end Mel
