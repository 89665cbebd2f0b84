import Mel.Quoted

/-!
# The items of a quoted text

Read from the left, the text between two quotes is a row of items: a backslash with the character it
hides, or any other single character. `span` stops at the first quote that is not inside an item.
-/

namespace Mel.Quoted

inductive Items : List Char → Prop where
  | nil : Items []
  | plain {c : Char} {rest : List Char} : c ≠ '"' → c ≠ '\\' → Items rest → Items (c :: rest)
  | escape {c : Char} {rest : List Char} : Items rest → Items ('\\' :: c :: rest)

def Closed (literal : List Char) : Prop := ∃ body, Items body ∧ literal = '"' :: (body ++ ['"'])

/-! ## One step of `span` -/

theorem span_quote (text : List Char) : span ('"' :: text) = ['"'] := by
  cases text <;> simp [span]

theorem span_plain (c : Char) (text : List Char) (hq : c ≠ '"') (hb : c ≠ '\\') :
    span (c :: text) = c :: span text := by
  cases text <;> simp [span, hq, hb]

theorem span_escape (c : Char) (text : List Char) : span ('\\' :: c :: text) = '\\' :: c :: span text := by
  simp [span]

theorem span_eq_nil_iff (text : List Char) : span text = [] ↔ text = [] := by
  match text with
  | [] | [_] => simp [span]
  | c :: d :: rest =>
    unfold span
    split
    · simp
    · split <;> simp

/-! ## Whole items -/

theorem span_append (body text : List Char) (h : Items body) : span (body ++ text) = body ++ span text := by
  induction h with
  | nil => rfl
  | plain hq hb _ ih => rw [List.cons_append, span_plain _ _ hq hb, ih, List.cons_append]
  | escape _ ih => rw [List.cons_append, List.cons_append, span_escape, ih]; rfl

theorem items_plain_iff (c : Char) (rest : List Char) (hb : c ≠ '\\') :
    Items (c :: rest) ↔ c ≠ '"' ∧ Items rest := by
  constructor
  · rintro (_ | ⟨hq, -, h⟩ | _)
    · exact ⟨hq, h⟩
    · exact absurd rfl hb
  · rintro ⟨hq, h⟩
    exact .plain hq hb h

theorem items_escape_iff (c : Char) (rest : List Char) : Items ('\\' :: c :: rest) ↔ Items rest := by
  constructor
  · rintro (_ | ⟨-, hb, -⟩ | h)
    · exact absurd rfl hb
    · exact h
  · exact .escape

theorem not_items_quote (body text : List Char) (h : Items body) : ¬ Items (body ++ '"' :: text) := by
  induction h with
  | nil => simp [items_plain_iff]
  | plain hq hb _ ih => rwa [List.cons_append, items_plain_iff _ _ hb, not_and, imp_iff_right hq]
  | escape _ ih => rwa [List.cons_append, List.cons_append, items_escape_iff]

theorem not_closed_of_items (body : List Char) (h : Items body) : ¬ Closed ('"' :: body) := by
  rintro ⟨inner, hinner, heq⟩
  rw [List.cons.injEq] at heq
  exact not_items_quote inner [] hinner (heq.2 ▸ h)

theorem not_closed_of_dangling (body : List Char) : ¬ Closed ('"' :: (body ++ ['\\'])) := by
  rintro ⟨inner, -, heq⟩
  simp at heq

/-! ## Every text -/

/-- The text starts with whole items and the quote after them, or it is whole items up to its end, where one
backslash may be left over. -/
def Itemized (text : List Char) : Prop :=
  ∃ body, Items body ∧ ((∃ after, text = body ++ '"' :: after) ∨ text = body ∨ text = body ++ ['\\'])

theorem itemized_append (item text : List Char) (hitem : ∀ body, Items body → Items (item ++ body))
    (h : Itemized text) : Itemized (item ++ text) := by
  obtain ⟨body, hbody, h⟩ := h
  refine ⟨item ++ body, hitem body hbody, ?_⟩
  rcases h with ⟨after, h⟩ | h | h
  · exact .inl ⟨after, by rw [h, List.append_assoc]⟩
  · exact .inr (.inl (by rw [h]))
  · exact .inr (.inr (by rw [h, List.append_assoc]))

theorem itemized (text : List Char) : Itemized text := by
  induction text using span.induct with
  | case1 => exact ⟨[], .nil, .inr (.inl rfl)⟩
  | case2 c =>
    by_cases hq : c = '"'
    · exact ⟨[], .nil, .inl ⟨[], by rw [hq]; rfl⟩⟩
    by_cases hb : c = '\\'
    · exact ⟨[], .nil, .inr (.inr (by rw [hb]; rfl))⟩
    · exact ⟨[c], .plain hq hb .nil, .inr (.inl rfl)⟩
  | case3 d rest => exact ⟨[], .nil, .inl ⟨d :: rest, rfl⟩⟩
  | case4 d rest _ ih => exact itemized_append ['\\', d] rest (fun _ => .escape) ih
  | case5 c d rest hq hb ih => exact itemized_append [c] (d :: rest) (fun _ => .plain hq hb) ih

end Mel.Quoted
