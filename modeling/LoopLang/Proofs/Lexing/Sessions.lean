import LoopLang.Cursor.Session
import LoopLang.Proofs.Lexing.Tokens

/-!
# Sessions are places in a list

In whatever way a session asks for tokens, its answers are those of a place in the list of all
tokens of the text, the end of input being what comes behind the list (`session_answers`).

A cursor that has passed `i` tokens has all but the first `i` tokens in front of it, and the same
end of input (`Cursor.HasPassed`).  Reading one more token moves it to `i + 1`, also when no token
is left, since nothing can be dropped from an empty list.  A session and a bookmark in the list
agree if both of their places do; every request keeps this, and its two answers are the same
(`Agrees.answer`).

All tokens at once, and their number, are a single request.  They are also what comes of asking for
one token after another until the end of input is the answer, and they leave the session at the same
place (`answers_replicate_token`, `answers_replicate_tokenBeforeEnd`).
-/

namespace LoopLang

namespace Cursor

/-! ## Places in a list of tokens -/

/-- A place in a list of tokens, as the number of tokens before it, and the place kept for
`restore`. -/
structure Bookmark where
  index : Nat
  kept : Nat
deriving DecidableEq

namespace Bookmark

variable (tokens : List Token) (last : Token)

/-- The answer to one request at a place in a list of tokens with the end of input, `last`, behind
them, and the place after it. -/
def answer (bookmark : Bookmark) : Request → Answer × Bookmark
  | .token =>
    (.token (tokens.getD bookmark.index last), { bookmark with index := bookmark.index + 1 })
  | .tokenBeforeEnd =>
    (.tokenBeforeEnd tokens[bookmark.index]?, { bookmark with index := bookmark.index + 1 })
  | .allTokens =>
    (.allTokens (tokens.drop bookmark.index ++ [last]), { bookmark with index := tokens.length })
  | .count =>
    (.count (tokens.length - bookmark.index), { bookmark with index := tokens.length })
  | .save => (.saved, { bookmark with kept := bookmark.index })
  | .restore => (.restored, { bookmark with index := bookmark.kept })

/-- The answers to a list of requests, in turn. -/
def answers (bookmark : Bookmark) : List Request → List Answer
  | [] => []
  | request :: requests =>
    match bookmark.answer tokens last request with
    | (answer, bookmark) => answer :: bookmark.answers requests

end Bookmark

/-- What a request is answered when no token is left. -/
def Request.answerAtEnd (last : Token) : Request → Answer
  | .token => .token last
  | .tokenBeforeEnd => .tokenBeforeEnd none
  | .allTokens => .allTokens [last]
  | .count => .count 0
  | .save => .saved
  | .restore => .restored

/-! ## Cursors that have passed some tokens -/

/-- A cursor stands in a text behind the first `index` of its tokens. -/
structure HasPassed (tokens : List Token) (last : Token) (index : Nat) (cursor : Cursor) :
    Prop where
  tokens_eq : cursor.tokens = tokens.drop index
  endToken_eq : cursor.endToken = last

variable {tokens : List Token} {last : Token} {index : Nat} {cursor : Cursor}

private theorem hasPassed_zero (cursor : Cursor) :
    cursor.HasPassed cursor.tokens cursor.endToken 0 :=
  ⟨rfl, rfl⟩

private theorem next_lexeme_eq_endOfInput_iff_tokens :
    cursor.next.1.lexeme = .endOfInput ↔ cursor.tokens = [] := by
  rw [Cursor.tokens_eq]
  by_cases hend : cursor.next.1.lexeme = .endOfInput <;> simp [hend]

@[simp] theorem tokens_toEnd (cursor : Cursor) : cursor.toEnd.tokens = [] := rfl

private theorem endToken_toEnd (cursor : Cursor) : cursor.toEnd.endToken = cursor.endToken := rfl

namespace HasPassed

variable (hpassed : cursor.HasPassed tokens last index)

include hpassed

/-- The token behind the first ones is the next in the list, or the end of input. -/
private theorem next_fst_eq : cursor.next.1 = tokens.getD index last := by
  have htokens := hpassed.tokens_eq
  by_cases hend : cursor.next.1.lexeme = .endOfInput
  · rw [next_lexeme_eq_endOfInput_iff_tokens.mp hend, eq_comm, List.drop_eq_nil_iff] at htokens
    rw [List.getD_eq_getElem?_getD, List.getElem?_eq_none htokens, Option.getD_none,
      next_of_end hend, hpassed.endToken_eq]
  · rw [Cursor.tokens_eq, if_neg hend] at htokens
    rw [List.getD_eq_getElem?_getD, ← List.head?_drop, ← htokens]
    rfl

/-- One token more is passed, if there is one. -/
private theorem next_snd : cursor.next.2.HasPassed tokens last (index + 1) where
  tokens_eq := by
    rw [← List.drop_drop, ← hpassed.tokens_eq]
    by_cases hend : cursor.next.1.lexeme = .endOfInput
    · rw [next_of_end hend, next_lexeme_eq_endOfInput_iff_tokens.mp hend]
      rfl
    · rw [Cursor.tokens_eq cursor, if_neg hend]
      rfl
  endToken_eq := by rw [endToken_next, hpassed.endToken_eq]

private theorem getElem?_eq :
    tokens[index]? = if cursor.next.1.lexeme = .endOfInput then none else some cursor.next.1 := by
  rw [← List.head?_drop, ← hpassed.tokens_eq, Cursor.tokens_eq cursor]
  split <;> rfl

private theorem toEnd : cursor.toEnd.HasPassed tokens last tokens.length where
  tokens_eq := by rw [tokens_toEnd, List.drop_length]
  endToken_eq := hpassed.endToken_eq

end HasPassed

/-! ## Sessions and bookmarks -/

/-- A session stands where a bookmark does, and keeps the same place. -/
structure Agrees (tokens : List Token) (last : Token) (session : Session) (bookmark : Bookmark) :
    Prop where
  cursor : session.cursor.HasPassed tokens last bookmark.index
  kept : session.kept.HasPassed tokens last bookmark.kept

/-- One request is answered alike, and leaves both at one place again. -/
theorem Agrees.answer {session : Session} {bookmark : Bookmark}
    (hagrees : Agrees tokens last session bookmark) (request : Request) :
    (session.answer request).1 = (bookmark.answer tokens last request).1 ∧
      Agrees tokens last (session.answer request).2 (bookmark.answer tokens last request).2 := by
  obtain ⟨hcursor, hkept⟩ := hagrees
  cases request with
  | token => exact ⟨congrArg Answer.token hcursor.next_fst_eq, hcursor.next_snd, hkept⟩
  | tokenBeforeEnd =>
      exact ⟨congrArg Answer.tokenBeforeEnd hcursor.getElem?_eq.symm, hcursor.next_snd, hkept⟩
  | allTokens =>
      refine ⟨?_, hcursor.toEnd, hkept⟩
      simp only [Session.answer, Bookmark.answer, tokenize, hcursor.tokens_eq, hcursor.endToken_eq]
  | count =>
      refine ⟨?_, hcursor.toEnd, hkept⟩
      simp only [Session.answer, Bookmark.answer, hcursor.tokens_eq, List.length_drop]
  | save => exact ⟨rfl, hcursor, hcursor⟩
  | restore => exact ⟨rfl, hkept, hkept⟩

private theorem Session.answers_cons (session : Session) (request : Request)
    (requests : List Request) :
    session.answers (request :: requests) =
      (session.answer request).1 :: (session.answer request).2.answers requests := rfl

private theorem Bookmark.answers_cons (bookmark : Bookmark) (request : Request)
    (requests : List Request) :
    bookmark.answers tokens last (request :: requests) =
      (bookmark.answer tokens last request).1 ::
        (bookmark.answer tokens last request).2.answers tokens last requests := rfl

private theorem Agrees.answers {session : Session} {bookmark : Bookmark}
    (hagrees : Agrees tokens last session bookmark) (requests : List Request) :
    session.answers requests = bookmark.answers tokens last requests := by
  induction requests generalizing session bookmark with
  | nil => rfl
  | cons request requests ih =>
      obtain ⟨hanswer, hafter⟩ := hagrees.answer request
      rw [Session.answers_cons, Bookmark.answers_cons, hanswer, ih hafter]

/-! ## A session at the end of the text -/

/-- The session after a list of requests. -/
def Session.after (session : Session) (requests : List Request) : Session :=
  requests.foldl (fun session request => (session.answer request).2) session

/-- At the end of the text a request is answered from the end of input alone, and the session stays
there, unless it returns to another place. -/
private theorem answer_of_tokens_eq_nil {session : Session} {request : Request}
    (hend : session.cursor.tokens = []) (hstays : request ≠ .restore) :
    (session.answer request).1 = request.answerAtEnd session.cursor.endToken ∧
      (session.answer request).2.cursor.tokens = [] ∧
      (session.answer request).2.cursor.endToken = session.cursor.endToken := by
  have hlexeme := next_lexeme_eq_endOfInput_iff_tokens.mpr hend
  cases request with
  | token =>
      simp only [Session.answer, Request.answerAtEnd, next_of_end hlexeme]
      exact ⟨trivial, tokens_toEnd _, endToken_toEnd _⟩
  | tokenBeforeEnd =>
      simp only [Session.answer, Request.answerAtEnd, next_of_end hlexeme]
      exact ⟨rfl, tokens_toEnd _, endToken_toEnd _⟩
  | allTokens =>
      simp only [Session.answer, Request.answerAtEnd, tokenize, hend]
      exact ⟨rfl, tokens_toEnd _, endToken_toEnd _⟩
  | count =>
      simp only [Session.answer, Request.answerAtEnd, hend]
      exact ⟨rfl, tokens_toEnd _, endToken_toEnd _⟩
  | save => exact ⟨rfl, hend, rfl⟩
  | restore => exact absurd rfl hstays

private theorem answers_of_tokens_eq_nil {session : Session} {requests : List Request}
    (hend : session.cursor.tokens = []) (hstays : .restore ∉ requests) :
    session.answers requests =
      requests.map (Request.answerAtEnd session.cursor.endToken) := by
  induction requests generalizing session with
  | nil => rfl
  | cons request requests ih =>
      rw [List.mem_cons, not_or] at hstays
      obtain ⟨hanswer, hafter, hlast⟩ := answer_of_tokens_eq_nil hend (Ne.symm hstays.1)
      rw [Session.answers_cons, List.map_cons, hanswer, ih hafter hstays.2, hlast]

/-! ## One token after another -/

/-- A request that reads one token, and answers it in some way, reads all of them when it is made
often enough, and leaves the session at the end of the text. -/
theorem answers_replicate (request : Request) (view : Token → Answer)
    (hreads : ∀ session : Session, session.answer request =
      (view session.cursor.next.1, { session with cursor := session.cursor.next.2 }))
    (session : Session) :
    session.answers (List.replicate session.cursor.tokenize.length request) =
        session.cursor.tokenize.map view ∧
      session.after (List.replicate session.cursor.tokenize.length request) =
        { session with cursor := session.cursor.toEnd } := by
  obtain ⟨cursor, kept⟩ := session
  induction cursor using along with
  | stop cursor hend =>
      simp only [tokenize_of_end hend, List.length_singleton, List.replicate_one,
        Session.answers_cons, Session.after, List.foldl_cons, List.foldl_nil, hreads,
        next_of_end hend, List.map_singleton, Session.answers, and_self]
  | turn cursor hend ih =>
      obtain ⟨hanswers, hafter⟩ := ih
      simp only [tokenize_of_not_end hend, List.length_cons, List.replicate_succ, List.map_cons,
        Session.answers_cons, hreads, hanswers, true_and]
      rw [Session.after, List.foldl_cons, hreads, ← toEnd_next]
      exact hafter

/-- After any requests a session stands at some place of the text it began with. -/
private theorem Agrees.exists_after {session : Session} {bookmark : Bookmark}
    (hagrees : Agrees tokens last session bookmark) (requests : List Request) :
    ∃ later, Agrees tokens last (session.after requests) later := by
  induction requests generalizing session bookmark with
  | nil => exact ⟨bookmark, hagrees⟩
  | cons request requests ih => exact ih (hagrees.answer request).2

/-- The answers of a session on a text are those of a place in the list of its tokens, with the end
of input behind them and nowhere else.  When no token is left, every request is answered from the
end of input alone, until the session returns to a place it has kept.  All tokens at once, and their
number, are what asking for one token after another gives, and leave the session where that does. -/
theorem session_answers (source : String) :
    (∀ requests, (Session.start (.start source)).answers requests =
      Bookmark.answers (Cursor.start source).tokens (Cursor.start source).endToken ⟨0, 0⟩
        requests) ∧
    ((∀ token ∈ (Cursor.start source).tokens, token.lexeme ≠ .endOfInput) ∧
      (Cursor.start source).endToken.lexeme = .endOfInput) ∧
    (∀ before after, ((Session.start (.start source)).after before).cursor.tokens = [] →
      .restore ∉ after →
      ((Session.start (.start source)).after before).answers after =
        after.map (Request.answerAtEnd (Cursor.start source).endToken)) ∧
    (∀ session : Session,
      session.answers (List.replicate session.cursor.tokenize.length .token) =
          session.cursor.tokenize.map .token ∧
        session.after (List.replicate session.cursor.tokenize.length .token) =
          (session.answer .allTokens).2 ∧
      session.answers (List.replicate session.cursor.tokenize.length .tokenBeforeEnd) =
          session.cursor.tokens.map (fun token => .tokenBeforeEnd (some token)) ++
            [.tokenBeforeEnd none] ∧
        session.after (List.replicate session.cursor.tokenize.length .tokenBeforeEnd) =
          (session.answer .count).2) := by
  have hstart : Agrees (Cursor.start source).tokens (Cursor.start source).endToken
      (Session.start (.start source)) ⟨0, 0⟩ :=
    ⟨hasPassed_zero _, hasPassed_zero _⟩
  have hproper : ∀ cursor : Cursor, ∀ token ∈ cursor.tokens, token.lexeme ≠ .endOfInput :=
    fun cursor token hmem => (cursor.lexical_of_mem_tokens token hmem).ne_endOfInput
  refine ⟨hstart.answers, ⟨hproper _, rfl⟩, fun before after hend hstays => ?_, fun session => ?_⟩
  · obtain ⟨later, hlater⟩ := hstart.exists_after before
    rw [answers_of_tokens_eq_nil hend hstays, hlater.cursor.endToken_eq]
  · obtain ⟨htokens, htokensAfter⟩ :=
      answers_replicate .token .token (fun _ => rfl) session
    obtain ⟨hbefore, hbeforeAfter⟩ :=
      answers_replicate .tokenBeforeEnd
        (fun token => .tokenBeforeEnd (if token.lexeme = .endOfInput then none else some token))
        (fun _ => rfl) session
    refine ⟨htokens, htokensAfter, ?_, hbeforeAfter⟩
    rw [hbefore, tokenize, List.map_append]
    congr 1
    exact List.map_congr_left fun token hmem => by rw [if_neg (hproper _ token hmem)]

/-- White space at the end of a text belongs to no token, and the end of input stands behind it. -/
theorem session_answers_at_end :
    ((Session.start (.start "a 1 ")).after [.token, .save, .count]).cursor.tokens = [] ∧
      ((Session.start (.start "a 1 ")).after [.token, .save, .count]).answers
          [.token, .tokenBeforeEnd, .allTokens] =
        [.token ⟨.endOfInput, 4, ⟨1, 5⟩⟩, .tokenBeforeEnd none,
          .allTokens [⟨.endOfInput, 4, ⟨1, 5⟩⟩]] := by
  have hend :
      ((Session.start (.start "a 1 ")).after [.token, .save, .count]).cursor.tokens = [] := by
    decide
  have hanswers := (session_answers "a 1 ").2.2.1 [.token, .save, .count]
    [.token, .tokenBeforeEnd, .allTokens] hend (by decide)
  exact ⟨hend, hanswers.trans (by decide)⟩

end Cursor

end LoopLang
