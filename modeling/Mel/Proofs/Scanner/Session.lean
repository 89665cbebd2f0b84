import Mathlib.Data.List.Forall2
import Mel.Proofs.Scanner.Pull
import Mel.Scanner.Session

/-!
# Sessions as rows of tokens

A row of tokens can answer requests without any text. A scanner answers as the row of the tokens ahead of it
does (`answer_eq`), and in a session each scanner has a row of its own, whichever scanners are asked in between
(`askAll_ofTexts`).
-/

namespace Mel

/-! ## One row -/

abbrev Row := List Token

/-- What a row replies, and what is left of it. A row cannot tell what a look ahead finds. -/
def Row.answer (row : Row) : Request → Option Reply × Row
  | .nextToken => (some (.token (row.head?.getD Token.eof)), row.tail)
  | .peek => (none, row)
  | .next => (some (.taken row.head?), row.tail)
  | .nth n => (some (.taken (row.drop n).head?), (row.drop n).tail)
  | .take n => (some (.tokens (row.take n)), row.drop n)
  | .rest => (some (.tokens row), [])
  | .count => (some (.count row.length), [])
  | .last => (some (.taken row.getLast?), [])

namespace Request

/-- How many tokens a scanner is asked for if so many are left. To give all that are left it asks for the end
as well. -/
def pulls (left : Nat) : Request → Nat
  | nextToken | next => 1
  | peek => 0
  | nth n => n + 1
  | take n => n
  | rest | count | last => left + 1

def atEnd : Request → Option Reply
  | nextToken => some (.token Token.eof)
  | peek => none
  | next | nth _ | last => some (.taken none)
  | take _ | rest => some (.tokens [])
  | count => some (.count 0)

end Request

theorem Row.answer_snd (row : Row) (request : Request) :
    (row.answer request).2 = row.drop (request.pulls row.length) := by
  cases request with
  | rest | count | last => simp [answer, Request.pulls]
  | _ => simp [answer, Request.pulls]

theorem Row.answer_nil (request : Request) : Row.answer [] request = (request.atEnd, []) := by
  cases request with
  | nth n | take n => simp [answer, Request.atEnd]
  | _ => rfl

theorem Scanner.answer_eq (scanner : Scanner) (request : Request) :
    scanner.answer request =
      ((Row.answer scanner.ahead request).1.getD (.lookahead scanner.peek),
        scanner.afterTokens (request.pulls scanner.ahead.length)) := by
  cases request with
  | peek => rfl
  | nextToken => rw [answer, nextToken_eq]; rfl
  | next => rw [answer, next_eq]; rfl
  | nth n => rw [answer, nth_eq]; rfl
  | take n => rw [answer, take_eq]; rfl
  | rest | count | last => rw [answer, drain_eq]; rfl

/-! ## A row for every scanner -/

abbrev Rows := List Row

namespace Rows

def ofTexts (texts : List String) : Rows := texts.map fun text => (scan text).dropLast

def ask (rows : Rows) (index : Nat) (request : Request) : Option Reply × Rows :=
  let answered := Row.answer (rows.getD index []) request
  (answered.1, rows.set index answered.2)

def askAll : List (Nat × Request) → Rows → List (Option Reply) × Rows
  | [], rows => ([], rows)
  | (index, request) :: more, rows =>
    let (reply, rows) := rows.ask index request
    let (replies, rows) := askAll more rows
    (reply :: replies, rows)

theorem askAll_ended (steps : List (Nat × Request)) (rows : Rows) (index : Nat) (h : rows[index]? = some [])
    (k : Nat) (request : Request) (hk : steps[k]? = some (index, request)) :
    (askAll steps rows).1[k]? = some request.atEnd := by
  induction steps generalizing rows k with
  | nil => simp at hk
  | cons step more ih =>
    obtain ⟨i, r⟩ := step
    cases k with
    | zero =>
      obtain ⟨rfl, rfl⟩ : i = index ∧ r = request := by simpa using hk
      simp [askAll, ask, List.getD, h, Row.answer_nil]
    | succ k =>
      have hkeep : (rows.ask i r).2[index]? = some [] := by
        by_cases hi : i = index
        · obtain ⟨hlt, hrow⟩ := List.getElem?_eq_some_iff.mp h
          simp [ask, hi, hlt, hrow, Row.answer_nil]
        · simp [ask, hi, h]
      simpa [askAll] using ih _ hkeep k (by simpa using hk)

end Rows

/-! ## Sessions -/

-- Nothing is expected of a look ahead.
def Meets (expected : Option Reply) (reply : Reply) : Prop := ∀ e ∈ expected, reply = e

theorem meets_getD (expected : Option Reply) (reply : Reply) : Meets expected (expected.getD reply) := by
  rintro e he
  rw [Option.mem_def.mp he, Option.getD_some]

theorem forall₂_getElem? {expected : List (Option Reply)} {replies : List Reply}
    (h : List.Forall₂ Meets expected replies) (k : Nat) (e : Option Reply) (hk : expected[k]? = some e) :
    ∃ reply, replies[k]? = some reply ∧ Meets e reply := by
  obtain ⟨hlt, rfl⟩ := List.getElem?_eq_some_iff.mp hk
  have hlt' : k < replies.length := h.length_eq ▸ hlt
  exact ⟨replies[k], List.getElem?_eq_getElem hlt', h.get hlt hlt'⟩

namespace Session

def rows (session : Session) : Rows := session.map Scanner.ahead

theorem rows_ofTexts (texts : List String) : (ofTexts texts).rows = Rows.ofTexts texts := by
  simp [rows, ofTexts, Rows.ofTexts, Scanner.ahead_ofText]

theorem ask_rows (session : Session) (index : Nat) (request : Request) (h : index < session.length) :
    ∃ reply final, session.ask index request = some (reply, final) ∧ final.length = session.length ∧
      final.rows = (session.rows.ask index request).2 ∧ Meets (session.rows.ask index request).1 reply := by
  have hrow : session.rows.getD index [] = session[index].ahead := by
    simp [rows, List.getD, List.getElem?_eq_getElem h]
  have hask : session.ask index request = some ((session[index].answer request).1,
      session.set index (session[index].answer request).2) := by
    rw [ask, List.getElem?_eq_getElem h]
    rfl
  refine ⟨_, _, hask, List.length_set, ?_, ?_⟩
  · rw [Rows.ask, hrow, Row.answer_snd, rows, List.map_set, Scanner.answer_eq, Scanner.ahead_afterTokens]
    rfl
  · rw [Rows.ask, hrow, Scanner.answer_eq]
    exact meets_getD _ _

theorem askAll_rows (steps : List (Nat × Request)) (session : Session)
    (h : ∀ step ∈ steps, step.1 < session.length) :
    ∃ replies final, session.askAll steps = some (replies, final) ∧ final.length = session.length ∧
      final.rows = (session.rows.askAll steps).2 ∧ List.Forall₂ Meets (session.rows.askAll steps).1 replies := by
  induction steps generalizing session with
  | nil => exact ⟨[], session, rfl, rfl, rfl, .nil⟩
  | cons step more ih =>
    obtain ⟨index, request⟩ := step
    rw [List.forall_mem_cons] at h
    obtain ⟨reply, next, hask, hlength, hrows, hmeets⟩ := ask_rows session index request h.1
    obtain ⟨replies, final, hmore, hlength', hrows', hall⟩ := ih next (by rw [hlength]; exact h.2)
    rw [hrows] at hrows' hall
    refine ⟨reply :: replies, final, ?_, hlength'.trans hlength, hrows', .cons hmeets hall⟩
    simp [askAll, hask, hmore]

/-- In whatever order scanners are asked, each replies as the row of its own tokens does. Once that row is empty
it replies with the end to whatever is asked of it. -/
theorem askAll_ofTexts (texts : List String) (steps : List (Nat × Request))
    (h : ∀ step ∈ steps, step.1 < texts.length) :
    ∃ replies session expected rows,
      (ofTexts texts).askAll steps = some (replies, session) ∧
      (Rows.ofTexts texts).askAll steps = (expected, rows) ∧ List.Forall₂ Meets expected replies ∧
      ∀ more : List (Nat × Request), (∀ step ∈ more, step.1 < texts.length) →
        ∃ moreReplies final, session.askAll more = some (moreReplies, final) ∧
          ∀ (k index : Nat) (request : Request), more[k]? = some (index, request) → rows[index]? = some [] →
            ∃ reply, moreReplies[k]? = some reply ∧ Meets request.atEnd reply := by
  obtain ⟨replies, session, hask, hlength, hrows, hmeets⟩ :=
    askAll_rows steps (ofTexts texts) (by simpa [ofTexts] using h)
  rw [rows_ofTexts] at hrows hmeets
  refine ⟨replies, session, _, _, hask, rfl, hmeets, fun more hmore => ?_⟩
  have hmore' : ∀ step ∈ more, step.1 < session.length := by simpa [hlength, ofTexts] using hmore
  obtain ⟨moreReplies, final, haskMore, -, -, hmeetsMore⟩ := askAll_rows more session hmore'
  refine ⟨moreReplies, final, haskMore, fun k index request hk hindex => ?_⟩
  rw [← hrows] at hindex
  exact forall₂_getElem? hmeetsMore k _ (Rows.askAll_ended more session.rows index hindex k request hk)

def crossed : List (Nat × Request) := [(0, .take 2), (1, .peek), (1, .nth 0), (0, .next), (1, .count)]

theorem askAll_ofTexts_crossed :
    (∀ step ∈ crossed, step.1 < ["a 1 ", "$x y"].length) ∧
      ∃ replies session expected rows,
        (ofTexts ["a 1 ", "$x y"]).askAll crossed = some (replies, session) ∧
        (Rows.ofTexts ["a 1 ", "$x y"]).askAll crossed = (expected, rows) ∧
        expected = [some (.tokens [⟨.identifier, "a"⟩, ⟨.integer, "1"⟩]), none,
          some (.taken (some ⟨.identifier, "$x"⟩)), some (.taken none), some (.count 1)] ∧
        List.Forall₂ Meets expected replies ∧
        ∃ moreReplies final, session.askAll [(1, .nextToken), (0, .take 3)] = some (moreReplies, final) ∧
          (∃ reply, moreReplies[0]? = some reply ∧ Meets (some (.token Token.eof)) reply) ∧
          ∃ reply, moreReplies[1]? = some reply ∧ Meets (some (.tokens [])) reply := by
  have hin : ∀ step ∈ crossed, step.1 < ["a 1 ", "$x y"].length := by decide
  have hmore : ∀ step ∈ ([(1, .nextToken), (0, .take 3)] : List (Nat × Request)),
      step.1 < ["a 1 ", "$x y"].length := by simp
  obtain ⟨replies, session, expected, rows, hask, hrows, hmeets, hended⟩ :=
    askAll_ofTexts ["a 1 ", "$x y"] crossed hin
  obtain ⟨hexpected, hleft⟩ : expected = _ ∧ rows = [[], []] := by
    have hrun : (Rows.ofTexts ["a 1 ", "$x y"]).askAll crossed =
        ([some (.tokens [⟨.identifier, "a"⟩, ⟨.integer, "1"⟩]), none,
          some (.taken (some ⟨.identifier, "$x"⟩)), some (.taken none), some (.count 1)], [[], []]) := by
      decide +kernel
    exact Prod.mk.inj (hrows.symm.trans hrun)
  obtain ⟨moreReplies, final, haskMore, hend⟩ := hended _ hmore
  exact ⟨hin, replies, session, expected, rows, hask, hrows, hexpected, hmeets, moreReplies, final, haskMore,
    hend 0 1 _ rfl (by rw [hleft]; rfl), hend 1 0 _ rfl (by rw [hleft]; rfl)⟩

end Session

end Mel
