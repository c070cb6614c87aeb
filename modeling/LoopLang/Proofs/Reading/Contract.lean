import LoopLang.Proofs.Lexing.Spelling
import LoopLang.Proofs.Reading.Steps
import LoopLang.Reader.Rule

/-!
# What it means for a rule to read a sentence

A rule either passes a sentence of its kind without a word, or reports a token where tokens that
can begin such a sentence end.  `Rule.Reads P` says so of a rule, where `P` relates the sentences of
a kind to what they denote:

* `Reader.Advances` is the good outcome: the tokens passed, and nothing reported;
* `Reader.Refuses` is the bad one: the first diagnostic points at a token, and the tokens before it
  can be continued to a sentence (`Viable`).

A rule that does not recover refuses a single token, and one that does may go on and report more.
The proposition `single` tells the two apart: where it holds, there is one diagnostic and no other.

The lemmas at the end follow the ways in which rules are put together, so that what a rule reads is
found by walking through its definition.
-/

namespace LoopLang

variable {α β : Type}

/-! ## Prefixes of sentences -/

/-- Tokens that can be continued, by tokens that a text can hold, to a sentence of a kind. -/
def Viable (P : List Token → α → Prop) (tokens : List Token) : Prop :=
  ∃ rest a, (∀ token ∈ rest, token.lexeme.Lexical) ∧ P (tokens ++ rest) a

/-- A sentence of one kind followed by one of another, whose kind may depend on what the first one
denotes. -/
def Follows (P : List Token → α → Prop) (Q : α → List Token → β → Prop) (tokens : List Token)
    (b : β) : Prop :=
  ∃ front back a, tokens = front ++ back ∧ P front a ∧ Q a back b

theorem Viable.mono {P Q : List Token → α → Prop} {tokens : List Token} (hviable : Viable P tokens)
    (himp : ∀ tokens a, P tokens a → Q tokens a) : Viable Q tokens := by
  obtain ⟨rest, a, hlexical, h⟩ := hviable
  exact ⟨rest, a, hlexical, himp _ _ h⟩

/-- What is behind a prefix of a sentence of two parts, when the prefix ends in the first part. -/
theorem Viable.follows_left {P : List Token → α → Prop} {Q : α → List Token → β → Prop}
    {tokens : List Token} (hviable : Viable P tokens)
    (hcompletes : ∀ front a, P front a → Viable (Q a) []) : Viable (Follows P Q) tokens := by
  obtain ⟨rest, a, hlexical, h⟩ := hviable
  obtain ⟨more, b, hmore, hb⟩ := hcompletes _ a h
  refine ⟨rest ++ more, b, ?_, tokens ++ rest, more, a, by simp, h, hb⟩
  intro token htoken
  rcases List.mem_append.mp htoken with htoken | htoken
  · exact hlexical token htoken
  · exact hmore token htoken

theorem Viable.follows_right {P : List Token → α → Prop} {Q : α → List Token → β → Prop}
    {front tokens : List Token} {a : α} (hfront : P front a) (hviable : Viable (Q a) tokens) :
    Viable (Follows P Q) (front ++ tokens) := by
  obtain ⟨rest, b, hlexical, h⟩ := hviable
  exact ⟨rest, b, hlexical, front, tokens ++ rest, a, by simp, hfront, h⟩

/-- A sentence of one kind, and a value made of what it denotes. -/
def Made (P : List Token → α → Prop) (f : α → β) (tokens : List Token) (b : β) : Prop :=
  ∃ a, P tokens a ∧ b = f a

theorem Viable.made {P : List Token → α → Prop} {tokens : List Token} (hviable : Viable P tokens)
    (f : α → β) : Viable (Made P f) tokens := by
  obtain ⟨rest, a, hlexical, h⟩ := hviable
  exact ⟨rest, f a, hlexical, a, h, rfl⟩

/-- A sentence can be begun where there is one. -/
theorem Viable.nil {P : List Token → α → Prop} {tokens : List Token} {a : α} (h : P tokens a)
    (hlexical : ∀ token ∈ tokens, token.lexeme.Lexical) : Viable P [] :=
  ⟨tokens, a, hlexical, h⟩

namespace Reader

variable {reader later last : Reader} {passed : List Token} {single : Prop}

/-! ## Readers in front of tokens of a text -/

/-- A reader in front of tokens with the end of input behind them, and nowhere else. -/
structure Proper (reader : Reader) : Prop where
  endToken_lexeme : reader.endToken.lexeme = .endOfInput
  ne_endOfInput : ∀ token ∈ reader.ahead, token.lexeme ≠ .endOfInput

theorem Proper.of_frame (hproper : Proper reader) (hframe : Frame reader later) : Proper later where
  endToken_lexeme := hframe.endToken_eq ▸ hproper.endToken_lexeme
  ne_endOfInput := fun token hmem => hproper.ne_endOfInput token (hframe.ahead_suffix.mem hmem)

/-- A reader in front of the same tokens. -/
theorem Proper.of_eq (hproper : Proper reader) (hahead : later.ahead = reader.ahead)
    (hend : later.endToken = reader.endToken) : Proper later where
  endToken_lexeme := hend ▸ hproper.endToken_lexeme
  ne_endOfInput := fun token hmem => hproper.ne_endOfInput token (hahead ▸ hmem)

theorem Proper.steps (hproper : Proper reader) (hsteps : Steps reader later) : Proper later :=
  hproper.of_frame hsteps.frame

theorem Proper.current_lexeme_eq_endOfInput_iff (hproper : Proper reader) :
    reader.current.lexeme = .endOfInput ↔ reader.ahead = [] := by
  cases hahead : reader.ahead with
  | nil => simp [hahead, hproper.endToken_lexeme]
  | cons token behind =>
      have hne := hproper.ne_endOfInput token (by simp [hahead])
      simp [reader.current_of_ahead_eq_cons hahead, hne]

theorem Proper.current_ne_endOfInput (hproper : Proper reader) (hahead : reader.ahead ≠ []) :
    reader.current.lexeme ≠ .endOfInput :=
  fun hlexeme => hahead (hproper.current_lexeme_eq_endOfInput_iff.mp hlexeme)

theorem Proper.ahead_eq_cons (hproper : Proper reader)
    (hlexeme : reader.current.lexeme ≠ .endOfInput) :
    ∃ behind, reader.ahead = reader.current :: behind := by
  cases hahead : reader.ahead with
  | nil => exact absurd (hproper.current_lexeme_eq_endOfInput_iff.mpr hahead) hlexeme
  | cons token behind => exact ⟨behind, by rw [reader.current_of_ahead_eq_cons hahead]⟩

/-! ## Passing a sentence -/

/-- A reader has passed some tokens and reported nothing on the way. -/
structure Advances (passed : List Token) (reader later : Reader) : Prop where
  steps : Steps reader later
  ahead_eq : reader.ahead = passed ++ later.ahead
  enclosing_eq : later.enclosing = reader.enclosing
  reported_eq : later.reported = false
  diagnostics_eq : later.diagnostics = reader.diagnostics

theorem Advances.refl (hreported : reader.reported = false) : Advances [] reader reader :=
  ⟨.refl, rfl, rfl, hreported, rfl⟩

theorem Advances.trans {front back : List Token} (hfirst : Advances front reader later)
    (hsecond : Advances back later last) : Advances (front ++ back) reader last where
  steps := hfirst.steps.trans hsecond.steps
  ahead_eq := by rw [hfirst.ahead_eq, hsecond.ahead_eq, List.append_assoc]
  enclosing_eq := hsecond.enclosing_eq.trans hfirst.enclosing_eq
  reported_eq := hsecond.reported_eq
  diagnostics_eq := hsecond.diagnostics_eq.trans hfirst.diagnostics_eq

/-- Passing a token of the language. -/
theorem Advances.advance (hproper : Proper reader)
    (hend : reader.current.lexeme ≠ .endOfInput)
    (hknown : ∀ found, reader.current.lexeme ≠ .unknown found) :
    Advances [reader.current] reader reader.advance := by
  obtain ⟨behind, hahead⟩ := hproper.ahead_eq_cons hend
  have hne : reader.ahead ≠ [] := by simp [hahead]
  refine ⟨.single (.advance hne), ?_, by simp, reader.reported_advance hne,
    reader.diagnostics_advance_of_ne_unknown hknown⟩
  rw [ahead_advance, hahead]
  rfl

/-! ## Refusing a token -/

/-- The diagnostic that names a cause at the first of some tokens, or else at the end of input. -/
def pointingAt (reader : Reader) (behind : List Token) (cause : Cause) : Diagnostic :=
  ⟨cause, (behind.headD reader.endToken).location, (behind.headD reader.endToken).span⟩

/-- A reader has passed tokens that can begin a sentence, and reported the token behind them;
where `single` holds, it has reported nothing else. -/
structure Refuses (single : Prop) (P : List Token → α → Prop) (reader later : Reader) : Prop where
  steps : Steps reader later
  enclosing_eq : later.enclosing = reader.enclosing
  refusal : ∃ passed behind cause more, reader.ahead = passed ++ behind ∧ Viable P passed ∧
    later.diagnostics = reader.diagnostics ++ reader.pointingAt behind cause :: more ∧
    (single → more = [])

theorem Refuses.mono {P : List Token → α → Prop} {Q : List Token → β → Prop}
    (hrefuses : Refuses single P reader later)
    (himp : ∀ passed, Viable P passed → Viable Q passed) : Refuses single Q reader later := by
  obtain ⟨hsteps, henclosing, passed, behind, cause, more, hahead, hviable, hrest⟩ := hrefuses
  exact ⟨hsteps, henclosing, passed, behind, cause, more, hahead, himp passed hviable, hrest⟩

/-- A refusal behind a sentence that was passed. -/
theorem Advances.refuses {P : List Token → α → Prop} {Q : List Token → β → Prop}
    (hadvances : Advances passed reader later) (hrefuses : Refuses single P later last)
    (himp : ∀ tokens, Viable P tokens → Viable Q (passed ++ tokens)) :
    Refuses single Q reader last := by
  obtain ⟨hsteps, henclosing, front, behind, cause, more, hahead, hviable, hdiagnostics, hmore⟩ :=
    hrefuses
  refine ⟨hadvances.steps.trans hsteps, henclosing.trans hadvances.enclosing_eq, passed ++ front,
    behind, cause, more, ?_, himp front hviable, ?_, hmore⟩
  · rw [hadvances.ahead_eq, hahead, List.append_assoc]
  · rw [hdiagnostics, hadvances.diagnostics_eq]
    simp [pointingAt, hadvances.steps.frame.endToken_eq]

/-- Whatever happens after a refusal, it stays the first one. -/
theorem Refuses.steps_later {P : List Token → α → Prop} (hrefuses : Refuses single P reader later)
    (hsteps : Steps later last) (henclosing : last.enclosing = later.enclosing) :
    Refuses False P reader last := by
  obtain ⟨hfirst, hsame, passed, behind, cause, more, hahead, hviable, hdiagnostics, -⟩ := hrefuses
  obtain ⟨new, hnew⟩ := hsteps.frame.diagnostics_prefix
  refine ⟨hfirst.trans hsteps, henclosing.trans hsame, passed, behind, cause, more ++ new, hahead,
    hviable, ?_, False.elim⟩
  rw [← hnew, hdiagnostics]
  simp

/-- A complaint about the current token. -/
theorem Refuses.complain {P : List Token → α → Prop} (hreported : reader.reported = false)
    (hinside : reader.ahead = [] → reader.enclosing ≠ []) (wanted : Wanted)
    (hviable : Viable P []) : Refuses single P reader (reader.complain wanted) := by
  refine ⟨.single (.complain wanted hinside), by simp, [], reader.ahead, reader.complaint wanted,
    [], rfl, hviable, ?_, fun _ => rfl⟩
  rw [diagnostics_complain, hreported]
  rfl

end Reader

/-! ## Rules that read sentences -/

/-- A rule came to one of the two outcomes. -/
def Yields (single : Prop) (P : List Token → α → Prop) (reader : Reader) :
    Option α × Reader → Prop
  | (some a, later) => ∃ passed, reader.Advances passed later ∧ P passed a
  | (none, later) => reader.Refuses single P later

/-- A reader inside a construct, with nothing reported at the current token, with `depth`
parentheses around it and room for `room` more. -/
structure Reader.Within (depth room : Nat) (reader : Reader) : Prop where
  proper : reader.Proper
  reported_eq : reader.reported = false
  enclosing_ne : reader.enclosing ≠ []
  levelled : reader.Levelled
  depth_eq : reader.depth = depth
  limit_eq : reader.limit = depth + room

theorem Reader.Within.advances {depth room : Nat} {reader later : Reader} {passed : List Token}
    (hwithin : reader.Within depth room) (hadvances : reader.Advances passed later) :
    later.Within depth room where
  proper := hwithin.proper.steps hadvances.steps
  reported_eq := hadvances.reported_eq
  enclosing_ne := hadvances.enclosing_eq ▸ hwithin.enclosing_ne
  levelled := hadvances.steps.levelled hwithin.levelled
  depth_eq :=
    (hwithin.levelled.depth_eq hadvances.steps hadvances.enclosing_eq).trans hwithin.depth_eq
  limit_eq := hadvances.steps.frame.limit_eq.trans hwithin.limit_eq

/-- Inside a construct with so many parentheses around it and room for so many more, a rule reads
the sentences of a kind. -/
def Rule.Reads (single : Prop) (depth room : Nat) (P : List Token → α → Prop) (rule : Rule α) :
    Prop :=
  ∀ reader : Reader, reader.Within depth room → Yields single P reader (rule reader)

namespace Rule

variable {single : Prop} {depth room : Nat} {reader : Reader} {P : List Token → α → Prop}

theorem Yields.steps {result : Option α × Reader} (hyields : Yields single P reader result) :
    Reader.Steps reader result.2 ∧ result.2.enclosing = reader.enclosing := by
  obtain ⟨_ | a, later⟩ := result
  · exact ⟨hyields.steps, hyields.enclosing_eq⟩
  · obtain ⟨passed, hadvances, -⟩ := hyields
    exact ⟨hadvances.steps, hadvances.enclosing_eq⟩

theorem yields_mono {P Q : List Token → α → Prop} {result : Option α × Reader}
    (hyields : Yields single P reader result) (himp : ∀ tokens a, P tokens a → Q tokens a) :
    Yields single Q reader result := by
  obtain ⟨_ | a, later⟩ := result
  · exact hyields.mono fun passed hviable => hviable.mono himp
  · obtain ⟨passed, hadvances, h⟩ := hyields
    exact ⟨passed, hadvances, himp _ _ h⟩

theorem yields_map {Q : List Token → β → Prop} {f : α → β} {result : Option α × Reader}
    (hyields : Yields single P reader result) (himp : ∀ tokens a, P tokens a → Q tokens (f a)) :
    Yields single Q reader (result.1.map f, result.2) := by
  obtain ⟨_ | a, later⟩ := result
  · exact hyields.mono fun _ hviable => (hviable.made f).mono fun tokens b ⟨a, h, hb⟩ =>
      hb ▸ himp tokens a h
  · obtain ⟨passed, hadvances, h⟩ := hyields
    exact ⟨passed, hadvances, himp _ a h⟩

theorem map_apply (rule : Rule α) (f : α → β) (reader : Reader) :
    (do let a ← rule; return f a : Rule β) reader = ((rule reader).1.map f, (rule reader).2) := by
  rw [bind_apply]
  rcases rule reader with ⟨_ | a, later⟩ <;> rfl

theorem yields_bind {rule : Rule α} {next : α → Rule β} {Q : α → List Token → β → Prop}
    (hrule : Yields single P reader (rule reader))
    (hnext : ∀ a passed later, reader.Advances passed later → P passed a →
      Yields single (Q a) later (next a later))
    (hcompletes : ∀ passed a, P passed a → Viable (Q a) []) :
    Yields single (Follows P Q) reader ((rule >>= next) reader) := by
  rw [bind_apply]
  rcases hresult : rule reader with ⟨_ | a, later⟩
  · rw [hresult] at hrule
    exact hrule.mono fun passed hviable => hviable.follows_left hcompletes
  · rw [hresult] at hrule
    obtain ⟨front, hadvances, hfront⟩ := hrule
    have hyields := hnext a front later hadvances hfront
    dsimp only
    rcases hafter : next a later with ⟨_ | b, last⟩
    · rw [hafter] at hyields
      exact hadvances.refuses hyields fun tokens hviable => hviable.follows_right hfront
    · rw [hafter] at hyields
      obtain ⟨back, hmore, hback⟩ := hyields
      exact ⟨front ++ back, hadvances.trans hmore, front, back, a, rfl, hfront, hback⟩

/-- One rule after another reads a sentence of the one kind and then one of the other. -/
theorem Reads.bind {rule : Rule α} {next : α → Rule β} {Q : α → List Token → β → Prop}
    (hrule : Reads single depth room P rule) (hnext : ∀ a, Reads single depth room (Q a) (next a))
    (hcompletes : ∀ passed a, P passed a → Viable (Q a) []) :
    Reads single depth room (Follows P Q) (rule >>= next) := fun reader hwithin =>
  yields_bind (hrule reader hwithin)
    (fun a _ later hadvances _ => hnext a later (hwithin.advances hadvances)) hcompletes

theorem Reads.bind_pure {rule : Rule α} (hrule : Reads single depth room P rule) (f : α → β) :
    Reads single depth room (Made P f) (do let a ← rule; return f a) := by
  intro reader hwithin
  rw [map_apply]
  exact yields_map (hrule reader hwithin) fun _ a h => ⟨a, h, rfl⟩

theorem Reads.mono {P Q : List Token → α → Prop} {rule : Rule α}
    (hrule : Reads single depth room P rule) (himp : ∀ tokens a, P tokens a → Q tokens a) :
    Reads single depth room Q rule :=
  fun reader hwithin => yields_mono (hrule reader hwithin) himp

/-- A rule that wants something else than the current token. -/
theorem yields_fail (hwithin : reader.Within depth room) (wanted : Wanted) (hviable : Viable P []) :
    Yields single P reader ((fail wanted : Rule α) reader) :=
  .complain hwithin.reported_eq (fun _ => hwithin.enclosing_ne) wanted hviable

/-! ## Single tokens -/

/-- A single token with a given lexeme. -/
def IsToken (lexeme : Lexeme) (tokens : List Token) (token : Token) : Prop :=
  tokens = [token] ∧ token.lexeme = lexeme

theorem viable_isToken {lexeme : Lexeme} (hlexical : lexeme.Lexical) : Viable (IsToken lexeme) [] :=
  ⟨[⟨lexeme, 0, .first⟩], _, by simpa using hlexical, rfl, rfl⟩

private theorem yields_advance (hproper : reader.Proper)
    (hend : reader.current.lexeme ≠ .endOfInput)
    (hknown : ∀ found, reader.current.lexeme ≠ .unknown found) :
    Yields single (IsToken reader.current.lexeme) reader (advance reader) :=
  ⟨[reader.current], .advance hproper hend hknown, rfl, rfl⟩

theorem expect_apply (lexeme : Lexeme) (wanted : Wanted) (reader : Reader) :
    expect lexeme wanted reader =
      if reader.current.lexeme = lexeme then advance reader else fail wanted reader := by
  simp only [expect, bind_apply, Rule.lexeme]
  split <;> rfl

theorem reads_expect {lexeme : Lexeme} (hlexical : lexeme.Lexical)
    (hknown : ∀ found, lexeme ≠ .unknown found) (wanted : Wanted) :
    Reads single depth room (IsToken lexeme) (expect lexeme wanted) := by
  intro reader hwithin
  rw [expect_apply]
  split
  · rename_i hcurrent
    subst hcurrent
    exact yields_advance hwithin.proper hlexical.ne_endOfInput hknown
  · exact yields_fail hwithin wanted (viable_isToken hlexical)

end Rule

end LoopLang
