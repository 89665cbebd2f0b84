import Mathlib.Data.List.Basic
import Mel.Proofs.Quoted.Items

/-!
# The body of a quoted text and its value

Three readings of the backslash agree on a row of items: `span` steps over a pair, `bodyChars` counts the
backslashes before the last quote, and `unescapeChars` decodes a pair to one character.
-/

namespace Mel.Quoted

/-! ## Rows of items -/

/-- A character that stands for itself, or a backslash with the character it hides. -/
inductive Item where
  | plain (c : Char) (not_quote : c ≠ '"') (not_backslash : c ≠ '\\')
  | escape (c : Char)

namespace Item

def chars : Item → List Char
  | plain c _ _ => [c]
  | escape c => ['\\', c]

def value : Item → Char
  | plain c _ _ => c
  | escape c => escaped c

end Item

def rowChars (row : List Item) : List Char := row.flatMap Item.chars

@[simp]
theorem rowChars_nil : rowChars [] = [] := rfl

@[simp]
theorem rowChars_cons (item : Item) (row : List Item) :
    rowChars (item :: row) = item.chars ++ rowChars row := List.flatMap_cons

theorem items_rowChars (row : List Item) : Items (rowChars row) := by
  induction row with
  | nil => exact .nil
  | cons item row ih =>
    cases item with
    | plain c hq hb => exact .plain hq hb ih
    | escape c => exact .escape ih

theorem exists_row (text : List Char) (h : Items text) : ∃ row, text = rowChars row := by
  induction h with
  | nil => exact ⟨[], rfl⟩
  | @plain c rest hq hb _ ih =>
    obtain ⟨row, rfl⟩ := ih
    exact ⟨.plain c hq hb :: row, rfl⟩
  | @escape c rest _ ih =>
    obtain ⟨row, rfl⟩ := ih
    exact ⟨.escape c :: row, rfl⟩

theorem hidden_of_quote (row : List Item) (left front back : List Char) (hleft : '"' ∉ left)
    (h : rowChars row ++ left = front ++ '"' :: back) :
    ∃ before after, row = before ++ .escape '"' :: after ∧ front = rowChars before ++ ['\\'] := by
  induction row generalizing front with
  | nil =>
    rw [rowChars_nil, List.nil_append] at h
    exact absurd (by simp [h]) hleft
  | cons item row ih =>
    cases item with
    | plain c hq hb =>
      cases front with
      | nil => exact absurd (List.cons.inj h).1 hq
      | cons d front =>
        obtain ⟨rfl, hrest⟩ := List.cons.inj h
        obtain ⟨before, after, rfl, rfl⟩ := ih front hrest
        exact ⟨.plain c hq hb :: before, after, rfl, rfl⟩
    | escape c =>
      match front with
      | [] => simp [Item.chars] at h
      | [d] =>
        obtain ⟨rfl, rfl, -⟩ : '\\' = d ∧ c = '"' ∧ rowChars row ++ left = back := by
          simpa [Item.chars] using h
        exact ⟨[], row, rfl, rfl⟩
      | d :: c' :: front =>
        obtain ⟨rfl, rfl, hrest⟩ : '\\' = d ∧ c = c' ∧ rowChars row ++ left = front ++ '"' :: back := by
          simpa [Item.chars] using h
        obtain ⟨before, after, rfl, rfl⟩ := ih front hrest
        exact ⟨.escape c :: before, after, rfl, rfl⟩

/-! ## Backslashes counted from the end -/

theorem endsHiding_plain (c : Char) (rest : List Char) (hb : c ≠ '\\') :
    endsHiding (c :: rest) = endsHiding rest := by
  simp only [endsHiding, List.reverse_cons, List.takeWhile_append]
  split
  · simp_all
  · rfl

theorem endsHiding_pair (c : Char) (rest : List Char) :
    endsHiding ('\\' :: c :: rest) = endsHiding rest := by
  simp only [endsHiding, List.reverse_cons, List.append_assoc, List.takeWhile_append]
  split
  · next hall =>
    by_cases hc : c = '\\'
    · simp [hc, hall]
    · simp [hc, hall]
  · rfl

theorem endsHiding_append (body text : List Char) (h : Items body) :
    endsHiding (body ++ text) = endsHiding text := by
  induction h with
  | nil => rfl
  | plain _ hb _ ih => rw [List.cons_append, endsHiding_plain _ _ hb, ih]
  | escape _ ih => rw [List.cons_append, List.cons_append, endsHiding_pair, ih]

theorem endsHiding_items (body : List Char) (h : Items body) : endsHiding body = false := by
  have happend := endsHiding_append body [] h
  rwa [List.append_nil] at happend

theorem endsHiding_dangling (body : List Char) (h : Items body) : endsHiding (body ++ ['\\']) = true :=
  endsHiding_append body ['\\'] h

/-! ## The body between the quotes -/

theorem beforeClosing_quote (inner : List Char) :
    beforeClosing (inner ++ ['"']) = if endsHiding inner then inner ++ ['"'] else inner := by
  cases h : endsHiding inner <;> simp [beforeClosing, h]

theorem beforeClosing_of_last (inner : List Char) (h : inner.getLast? ≠ some '"') :
    beforeClosing inner = inner := by
  simp [beforeClosing, h]

theorem endsHiding_of_items_quote (inner : List Char) (h : Items (inner ++ ['"'])) :
    endsHiding inner = true := by
  obtain ⟨body, hbody, ⟨after, rfl⟩ | rfl | rfl⟩ := itemized inner
  · rw [List.append_assoc, List.cons_append] at h
    exact absurd h (not_items_quote body _ hbody)
  · exact absurd h (not_items_quote inner [] hbody)
  · exact endsHiding_dangling body hbody

theorem beforeClosing_items (body : List Char) (h : Items body) : beforeClosing body = body := by
  by_cases hlast : body.getLast? = some '"'
  · obtain ⟨inner, rfl⟩ := List.getLast?_eq_some_iff.mp hlast
    rw [beforeClosing_quote, if_pos (endsHiding_of_items_quote inner h)]
  · exact beforeClosing_of_last body hlast

theorem bodyChars_closed (body : List Char) (h : Items body) :
    bodyChars ('"' :: (body ++ ['"'])) = body := by
  rw [bodyChars, afterOpening, if_pos rfl, beforeClosing_quote, endsHiding_items body h]
  rfl

theorem bodyChars_unclosed (body : List Char) (h : Items body) : bodyChars ('"' :: body) = body := by
  rw [bodyChars, afterOpening, if_pos rfl, beforeClosing_items body h]

theorem bodyChars_dangling (body : List Char) :
    bodyChars ('"' :: (body ++ ['\\'])) = body ++ ['\\'] := by
  rw [bodyChars, afterOpening, if_pos rfl, beforeClosing_of_last _ (by simp)]

/-! ## What the items spell -/

theorem unescapeChars_plain (c : Char) (text : List Char) (hb : c ≠ '\\') :
    unescapeChars (c :: text) = c :: unescapeChars text := by
  cases text <;> simp [unescapeChars, hb]

theorem unescapeChars_pair (c : Char) (text : List Char) :
    unescapeChars ('\\' :: c :: text) = escaped c :: unescapeChars text := by
  simp [unescapeChars]

theorem unescapeChars_row (row : List Item) (text : List Char) :
    unescapeChars (rowChars row ++ text) = row.map Item.value ++ unescapeChars text := by
  induction row with
  | nil => rfl
  | cons item row ih =>
    rw [rowChars_cons, List.append_assoc, List.map_cons, List.cons_append]
    cases item with
    | plain c hq hb => rw [Item.chars, List.singleton_append, unescapeChars_plain _ _ hb, ih]; rfl
    | escape c => rw [Item.chars, List.cons_append, List.singleton_append, unescapeChars_pair, ih]; rfl

/-! ## The reading of a body -/

/-- A body is a row of items, with a backslash left over if the text ends before the character it would hide.
Each item spells one character, and a quote in the body is hidden by its item. -/
structure Reading (body : String) (row : List Item) (left : List Char) : Prop where
  leftover : left = [] ∨ left = ['\\']
  chars : body.toList = rowChars row ++ left
  value : (unescape body).toList = row.map Item.value ++ left
  hidden : ∀ front back, body.toList = front ++ '"' :: back →
    ∃ before after, row = before ++ .escape '"' :: after ∧ front = rowChars before ++ ['\\']

theorem reading_of_chars (body : String) (row : List Item) (left : List Char)
    (hleft : left = [] ∨ left = ['\\']) (h : body.toList = rowChars row ++ left) :
    Reading body row left := by
  have hvalue : (unescape body).toList = row.map Item.value ++ left := by
    rw [unescape, String.toList_ofList, h, unescapeChars_row]
    rcases hleft with rfl | rfl <;> rfl
  have hquote : '"' ∉ left := by rcases hleft with rfl | rfl <;> simp
  refine ⟨hleft, h, hvalue, ?_⟩
  intro front back hback
  exact hidden_of_quote row left front back hquote (h.symm.trans hback)

theorem reading_closed (literal : String) (row : List Item)
    (h : literal.toList = '"' :: (rowChars row ++ ['"'])) :
    Reading (body literal) row [] ∧ literal = "\"" ++ body literal ++ "\"" := by
  have hbody : (body literal).toList = rowChars row := by
    rw [body, String.toList_ofList, h, bodyChars_closed _ (items_rowChars row)]
  refine ⟨reading_of_chars _ row [] (.inl rfl) (by simpa using hbody), ?_⟩
  apply String.toList_injective
  simp [hbody, h]

theorem reading_open (literal : String) (row : List Item) (left : List Char)
    (hleft : left = [] ∨ left = ['\\']) (h : literal.toList = '"' :: (rowChars row ++ left)) :
    Reading (body literal) row left ∧ literal = "\"" ++ body literal := by
  have hbody : (body literal).toList = rowChars row ++ left := by
    rw [body, String.toList_ofList, h]
    rcases hleft with rfl | rfl
    · rw [List.append_nil, bodyChars_unclosed _ (items_rowChars row)]
    · rw [bodyChars_dangling]
  refine ⟨reading_of_chars _ row left hleft hbody, ?_⟩
  apply String.toList_injective
  simp [hbody, h]

/-! ## Spellings of a value -/

def controls : List (Char × Char) := [('n', '\n'), ('t', '\t'), ('r', '\r')]

inductive Spells : List Char → List Char → Prop where
  | nil : Spells [] []
  | raw {c : Char} {value spelled : List Char} : c ≠ '"' → c ≠ '\\' → Spells value spelled →
      Spells (c :: value) (c :: spelled)
  | hidden {c : Char} {value spelled : List Char} : c ≠ 'n' → c ≠ 't' → c ≠ 'r' → Spells value spelled →
      Spells (c :: value) ('\\' :: c :: spelled)
  | control {letter c : Char} {value spelled : List Char} : (letter, c) ∈ controls → Spells value spelled →
      Spells (c :: value) ('\\' :: letter :: spelled)

theorem exists_spells (value : List Char) : ∃ spelled, Spells value spelled := by
  induction value with
  | nil => exact ⟨[], .nil⟩
  | cons c value ih =>
    obtain ⟨spelled, h⟩ := ih
    by_cases hc : c = '"' ∨ c = '\\'
    · refine ⟨'\\' :: c :: spelled, ?_⟩
      rcases hc with rfl | rfl
      · exact .hidden (by decide) (by decide) (by decide) h
      · exact .hidden (by decide) (by decide) (by decide) h
    · rw [not_or] at hc
      exact ⟨c :: spelled, .raw hc.1 hc.2 h⟩

theorem escaped_of_control (letter c : Char) (h : (letter, c) ∈ controls) : escaped letter = c := by
  simp only [controls, List.mem_cons, Prod.mk.injEq, List.not_mem_nil, or_false] at h
  rcases h with ⟨rfl, rfl⟩ | ⟨rfl, rfl⟩ | ⟨rfl, rfl⟩
  all_goals rfl

theorem row_of_spells (value spelled : List Char) (h : Spells value spelled) :
    ∃ row, spelled = rowChars row ∧ value = row.map Item.value := by
  induction h with
  | nil => exact ⟨[], rfl, rfl⟩
  | @raw c _ _ hq hb _ ih =>
    obtain ⟨row, rfl, rfl⟩ := ih
    exact ⟨.plain c hq hb :: row, rfl, rfl⟩
  | @hidden c _ _ hn ht hr _ ih =>
    obtain ⟨row, rfl, rfl⟩ := ih
    exact ⟨.escape c :: row, rfl, by simp [Item.value, escaped, hn, ht, hr]⟩
  | @control letter c _ _ hc _ ih =>
    obtain ⟨row, rfl, rfl⟩ := ih
    exact ⟨.escape letter :: row, rfl, by simp [Item.value, escaped_of_control letter c hc]⟩

end Mel.Quoted
