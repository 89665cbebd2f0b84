import Mel.Proofs.Scanner.Place
import Mel.Proofs.Scanner.Session

/-!
# Going on from where a scanner is

A scanner remembers nothing of the tokens it gave. Its replies show how many tokens it has taken, and from then on
it cannot be told from a new scanner of the text behind them (`answerAll_resume`).
-/

namespace Mel

/-! ## What the replies show -/

/-- How many tokens are taken with a reply. There is no number when the scanner has met the end of the text. -/
def Request.taken : Request → Reply → Option Nat
  | .peek, _ => some 0
  | .nextToken, .token token => if token.isEof then none else some 1
  | .next, .taken (some _) => some 1
  | .nth n, .taken (some _) => some (n + 1)
  | .take n, .tokens tokens => if tokens.length = n then some n else none
  | _, _ => none

def takenAll : List Request → List Reply → Option Nat
  | request :: more, reply :: replies => do
    let n ← request.taken reply
    let m ← takenAll more replies
    return n + m
  | _, _ => some 0

/-- The text right behind so many tokens, with the blanks that come next. Nothing is left once the end was met. -/
def leftover (text : String) : Option Nat → String
  | none => ""
  | some 0 => text
  | some (n + 1) =>
    match (placed text)[n]? with
    | none => ""
    | some p => String.ofList (text.toList.drop p.stop)

namespace Scanner

def answerAll (scanner : Scanner) : List Request → List Reply × Scanner
  | [] => ([], scanner)
  | request :: more =>
    let answered := scanner.answer request
    let final := answered.2.answerAll more
    (answered.1 :: final.1, final.2)

theorem askAll_singleton (scanner : Scanner) (requests : List Request) :
    Session.askAll (requests.map fun request => (0, request)) [scanner] =
      some ((scanner.answerAll requests).1, [(scanner.answerAll requests).2]) := by
  induction requests generalizing scanner with
  | nil => rfl
  | cons request more ih => simp [Session.askAll, Session.ask, answerAll, ih]

/-! ## How many tokens are taken -/

theorem formed_of_mem_ahead (scanner : Scanner) (token : Token) (h : token ∈ scanner.ahead) : token.Formed := by
  obtain ⟨tokens, hreads⟩ := exists_reads scanner.rest
  rw [ahead_of_reads scanner tokens hreads] at h
  exact formed_of_reads _ _ hreads token h

def within (left n : Nat) : Option Nat := if n ≤ left then some n else none

theorem within_add (left m n : Nat) :
    (do
      let a ← within left m
      let b ← within (left - m) n
      return a + b) = within left (m + n) := by
  unfold within
  by_cases hm : m ≤ left
  · by_cases hn : n ≤ left - m
    · simp [hm, hn, show m + n ≤ left by omega]
    · simp [hm, hn, show ¬ m + n ≤ left by omega]
  · simp [hm, show ¬ m + n ≤ left by omega]

theorem taken_answer (scanner : Scanner) (request : Request) :
    request.taken (scanner.answer request).1 =
      within scanner.ahead.length (request.pulls scanner.ahead.length) := by
  rw [answer_eq]
  unfold within
  cases request with
  | peek => simp [Request.taken, Request.pulls]
  | rest | count | last =>
    rw [Request.pulls, if_neg (Nat.not_succ_le_self _)]
    rfl
  | nextToken =>
    cases hrow : scanner.ahead with
    | nil => rfl
    | cons token more =>
      have heof := isEof_of_formed token (formed_of_mem_ahead scanner token (by simp [hrow]))
      simp [Row.answer, Request.taken, Request.pulls, heof]
  | next =>
    cases hrow : scanner.ahead with
    | nil => rfl
    | cons token more => simp [Row.answer, Request.taken, Request.pulls]
  | nth n =>
    by_cases hn : n < scanner.ahead.length
    · simp [Row.answer, Request.taken, Request.pulls, hn, Nat.succ_le_of_lt hn]
    · rw [Request.pulls, if_neg (by omega)]
      simp [Row.answer, Request.taken, hn]
  | take n =>
    by_cases hn : n ≤ scanner.ahead.length
    · simp [Row.answer, Request.taken, Request.pulls, hn]
    · have hshort : min n scanner.ahead.length ≠ n := by omega
      simp [Row.answer, Request.taken, Request.pulls, hn, hshort]

/-- After any requests a scanner is where it would be after so many tokens, and the replies tell how many they
are, or that they are more than there were. -/
theorem answerAll_taken (scanner : Scanner) (requests : List Request) :
    ∃ n, (scanner.answerAll requests).2 = scanner.afterTokens n ∧
      takenAll requests (scanner.answerAll requests).1 = within scanner.ahead.length n := by
  induction requests generalizing scanner with
  | nil => exact ⟨0, rfl, rfl⟩
  | cons request more ih =>
    obtain ⟨n, hfinal, htaken⟩ := ih (scanner.answer request).2
    have hstep := taken_answer scanner request
    have hafter : (scanner.answer request).2 = scanner.afterTokens (request.pulls scanner.ahead.length) := by
      rw [answer_eq]
    generalize request.pulls scanner.ahead.length = pulls at hstep hafter
    refine ⟨pulls + n, ?_, ?_⟩
    · rw [answerAll, hfinal, hafter, ← afterTokens_add]
    · rw [hafter, ahead_afterTokens, List.length_drop] at htaken
      rw [answerAll, takenAll, hstep, hafter, htaken]
      exact within_add _ _ _

theorem taken_le (scanner : Scanner) (requests : List Request) (n : Nat)
    (h : n ∈ takenAll requests (scanner.answerAll requests).1) : n ≤ scanner.ahead.length := by
  obtain ⟨m, -, htaken⟩ := answerAll_taken scanner requests
  rw [htaken, within, Option.mem_def] at h
  split_ifs at h with hm
  obtain rfl := Option.some.inj h
  exact hm

/-! ## What is ahead -/

theorem rest_afterTokens_leftover (text : String) (n : Nat) (h : n ≤ (ofText text).ahead.length) :
    ((ofText text).afterTokens n).rest = (leftover text (some n)).toList := by
  cases n with
  | zero => rfl
  | succ n =>
    have hin := in_afterTokens _ _ (in_ofText text) (n + 1)
    rw [hin.2, leftover, ← placed_ofText, getElem?_placed, List.getElem?_eq_getElem h]
    simp

theorem behind_leftover (text : String) (n : Nat) (h : n ≤ (ofText text).ahead.length) (left : List Char) :
    Behind text.toList ((scan text).take n) left ↔ left = (leftover text (some n)).toList := by
  have hscan : scan text = (ofText text).ahead ++ [Token.eof] := rfl
  have hbehind := behind_afterTokens (ofText text) n h
  rw [rest_afterTokens_leftover text n h] at hbehind
  rw [hscan, List.take_append_of_le_length h]
  constructor
  · intro hleft
    apply behind_unique _ _ _ _ hleft hbehind
    exact fun token htoken => formed_of_mem_ahead (ofText text) token (List.mem_of_mem_take htoken)
  · rintro rfl
    exact hbehind

theorem rest_answerAll (text : String) (requests : List Request) :
    ((ofText text).answerAll requests).2.rest =
      (leftover text (takenAll requests ((ofText text).answerAll requests).1)).toList := by
  obtain ⟨n, hfinal, htaken⟩ := answerAll_taken (ofText text) requests
  rw [hfinal, htaken, within]
  by_cases hn : n ≤ (ofText text).ahead.length
  · rw [if_pos hn, rest_afterTokens_leftover text n hn]
  · rw [if_neg hn, rest_afterTokens _ _ (by omega)]
    rfl

theorem answer_congr (scanner other : Scanner) (request : Request) (h : scanner.rest = other.rest) :
    (scanner.answer request).1 = (other.answer request).1 ∧
      (scanner.answer request).2.rest = (other.answer request).2.rest := by
  have hahead := ahead_congr scanner other h
  rw [answer_eq, answer_eq, hahead]
  exact ⟨by rw [peek, peek, h], rest_afterTokens_congr scanner other h _⟩

theorem answerAll_congr (scanner other : Scanner) (requests : List Request) (h : scanner.rest = other.rest) :
    (scanner.answerAll requests).1 = (other.answerAll requests).1 := by
  induction requests generalizing scanner other with
  | nil => rfl
  | cons request more ih =>
    obtain ⟨hreply, hrest⟩ := answer_congr scanner other request h
    simp only [answerAll, hreply, ih _ _ hrest]

/-- After any requests a scanner looks ahead and replies like a new scanner of the text behind the tokens that were
taken. This text starts right behind the last of them, and only what asks for the end goes past its blanks. -/
theorem answerAll_resume (text : String) (requests : List Request) :
    let answered := (ofText text).answerAll requests
    let left := leftover text (takenAll requests answered.1)
    Session.askAll (requests.map fun request => (0, request)) (Session.ofTexts [text]) =
        some (answered.1, [answered.2]) ∧
      (∀ n ∈ takenAll requests answered.1, ∀ chars,
        Behind text.toList ((scan text).take n) chars ↔ chars = left.toList) ∧
      answered.2.peek = left.toList[1]? ∧
      (∀ more, (answered.2.answerAll more).1 = ((ofText left).answerAll more).1) ∧
      (∀ n, (answered.2.take n).1.length = n →
        Behind left.toList ((scan left).take n) (answered.2.answer (.take n)).2.rest) ∧
      ∀ request ∈ [.rest, .count, .last], (answered.2.answer request).2.rest = [] := by
  intro answered left
  have hrest : answered.2.rest = left.toList := rest_answerAll text requests
  refine ⟨askAll_singleton (ofText text) requests, ?_, by rw [peek, hrest],
    fun more => answerAll_congr _ _ more hrest, ?_, ?_⟩
  · intro n hn chars
    have hleft : left = leftover text (some n) := congrArg (leftover text) hn
    rw [hleft]
    exact behind_leftover text n (taken_le (ofText text) requests n hn) chars
  · intro n hn
    rw [take_eq, List.length_take, ahead_congr _ (ofText left) hrest] at hn
    rw [(answer_congr _ (ofText left) (.take n) hrest).2, answer_eq, behind_leftover left n (by omega)]
    exact rest_afterTokens_leftover left n (by omega)
  · intro request hrequest
    have hpulls : request.pulls answered.2.ahead.length = answered.2.ahead.length + 1 := by
      simp only [List.mem_cons, List.not_mem_nil, or_false] at hrequest
      rcases hrequest with rfl | rfl | rfl
      all_goals rfl
    rw [answer_eq, hpulls, rest_afterTokens _ _ (Nat.lt_succ_self _)]

/-- Blanks at the end stay ahead of a scanner that was asked for just the tokens before them. -/
theorem answerAll_resume_blanks :
    let answered := (ofText "x a  ").answerAll [.next]
    1 ∈ takenAll [.next] answered.1 ∧ Behind "x a  ".toList [⟨.identifier, "x"⟩] " a  ".toList ∧
      (answered.2.take 1).1.length = 1 ∧
      Behind " a  ".toList [⟨.identifier, "a"⟩] (answered.2.answer (.take 1)).2.rest := by
  intro answered
  have htaken : 1 ∈ takenAll [.next] answered.1 := by decide +kernel
  have hlength : (answered.2.take 1).1.length = 1 := by decide +kernel
  have hleft : leftover "x a  " (takenAll [.next] answered.1) = " a  " := by decide +kernel
  have hscan : (scan "x a  ").take 1 = [⟨.identifier, "x"⟩] := by decide +kernel
  have hscanLeft : (scan " a  ").take 1 = [⟨.identifier, "a"⟩] := by decide +kernel
  obtain ⟨-, hbehind, -, -, htake, -⟩ := answerAll_resume "x a  " [.next]
  rw [hleft] at hbehind htake
  have hfront := (hbehind 1 htaken _).mpr rfl
  have hback := htake 1 hlength
  rw [hscan] at hfront
  rw [hscanLeft] at hback
  exact ⟨htaken, hfront, hlength, hback⟩

end Scanner

end Mel
