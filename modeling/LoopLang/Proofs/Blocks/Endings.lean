import LoopLang.Proofs.Accepting.Simple
import LoopLang.Proofs.Reading.Chains

/-!
# Where a rule ends

A rule that goes on after a failure ends behind the tokens it wants to end behind, whatever it
reports on the way.  `Rule.Ends` says where a rule ends, what it yields and what it reports, and the
lemmas here follow the rules for bodies, blocks and chains of blocks.  Acceptance is the case of a
value and no reports (`Rule.Accepts.ends`, `Rule.Ends.accepts`).
-/

namespace LoopLang

open Grammar

namespace Reader

variable {reader later last : Reader} {passed front back rest : List Token}
  {reports more : List Diagnostic}

/-- A reader has passed some tokens and made some reports on the way, none of them about the token
it stands at. -/
structure Passes (passed : List Token) (reports : List Diagnostic) (reader later : Reader) :
    Prop where
  steps : Steps reader later
  ahead_eq : reader.ahead = passed ++ later.ahead
  enclosing_eq : later.enclosing = reader.enclosing
  reported_eq : later.reported = false
  diagnostics_eq : later.diagnostics = reader.diagnostics ++ reports

theorem Advances.passes (hadvances : Advances passed reader later) :
    Passes passed [] reader later :=
  ⟨hadvances.steps, hadvances.ahead_eq, hadvances.enclosing_eq, hadvances.reported_eq, by
    rw [hadvances.diagnostics_eq, List.append_nil]⟩

/-- Whoever passes some tokens without a report advances over them. -/
private theorem Passes.toAdvances (hpasses : Passes passed [] reader later) :
    Advances passed reader later :=
  ⟨hpasses.steps, hpasses.ahead_eq, hpasses.enclosing_eq, hpasses.reported_eq, by
    rw [hpasses.diagnostics_eq, List.append_nil]⟩

theorem Passes.trans (hfirst : Passes front reports reader later)
    (hsecond : Passes back more later last) :
    Passes (front ++ back) (reports ++ more) reader last where
  steps := hfirst.steps.trans hsecond.steps
  ahead_eq := by rw [hfirst.ahead_eq, hsecond.ahead_eq, List.append_assoc]
  enclosing_eq := hsecond.enclosing_eq.trans hfirst.enclosing_eq
  reported_eq := hsecond.reported_eq
  diagnostics_eq := by rw [hsecond.diagnostics_eq, hfirst.diagnostics_eq, List.append_assoc]

theorem Passes.advances (hfirst : Passes front reports reader later)
    (hsecond : Advances back later last) : Passes (front ++ back) reports reader last := by
  have hpasses := hfirst.trans hsecond.passes
  rwa [List.append_nil] at hpasses

theorem Advances.trans_passes (hfirst : Advances front reader later)
    (hsecond : Passes back reports later last) : Passes (front ++ back) reports reader last :=
  hfirst.passes.trans hsecond

theorem Passes.ahead_later (hpasses : Passes passed reports reader later)
    (hahead : reader.ahead = passed ++ rest) : later.ahead = rest :=
  List.append_cancel_left (hpasses.ahead_eq.symm.trans hahead)

/-- What is passed inside a construct is passed behind the token that opens it. -/
private theorem Passes.leave {construct : Construct} {token : Token}
    (hahead : reader.ahead = token :: rest) (hopens : construct.OpenedBy token.lexeme)
    (hdepth : construct = .parenthesized → reader.depth < reader.limit)
    (hpasses : Passes passed reports (reader.advanceInto construct) later) :
    Passes (token :: passed) reports reader (later.leaveFrom construct) := by
  have hcurrent : reader.current = token := reader.current_of_ahead_eq_cons hahead
  have hinto := Rule.ahead_advanceInto construct hahead
  have hstep : Step reader (reader.advanceInto construct) := .advanceInto (hcurrent ▸ hopens) hdepth
  have hleave : Step later (later.leaveFrom construct) :=
    .leave (hpasses.enclosing_eq.trans (reader.enclosing_advanceInto construct))
  refine ⟨.head hstep (hpasses.steps.tail hleave), ?_, by simp [hpasses.enclosing_eq],
    by simpa using hpasses.reported_eq, ?_⟩
  · rw [hahead, ← hinto, hpasses.ahead_eq, ahead_leaveFrom, List.cons_append]
  · rw [diagnostics_leaveFrom, hpasses.diagnostics_eq, advanceInto, diagnostics_enter,
      diagnostics_descendInto,
      reader.diagnostics_advance_of_ne_unknown (hcurrent ▸ hopens.ne_unknown)]

end Reader

namespace Rule

variable {α β : Type} {room : Nat} {reader : Reader} {tokens front middle back rest : List Token}
  {reports more : List Diagnostic}

/-- A rule ends behind some tokens with an outcome and some reports. -/
def Ends (reader : Reader) (tokens : List Token) (outcome : Option α) (reports : List Diagnostic)
    (result : Option α × Reader) : Prop :=
  result.1 = outcome ∧ reader.Passes tokens reports result.2

theorem Accepts.ends {a : α} {result : Option α × Reader}
    (haccepts : Accepts reader tokens a result) :
    Ends reader tokens (some a) [] result := by
  obtain ⟨later, rfl, hadvances⟩ := haccepts
  exact ⟨rfl, hadvances.passes⟩

theorem Ends.accepts {a : α} {result : Option α × Reader}
    (hends : Ends reader tokens (some a) [] result) : Accepts reader tokens a result := by
  obtain ⟨hresult, hpasses⟩ := hends
  exact ⟨result.2, by rw [← hresult], hpasses.toAdvances⟩

theorem Accepts.recoveringBy {rule : Rule α} {a : α}
    (haccepts : Accepts reader tokens a (rule reader)) (recovery : Reader → Reader) :
    Accepts reader tokens a (rule.recoveringBy recovery reader) := by
  obtain ⟨later, hresult, hadvances⟩ := haccepts
  refine ⟨later, ?_, hadvances⟩
  rw [Rule.recoveringBy, hresult]

theorem Accepts.map {rule : Rule α} {a : α} (haccepts : Accepts reader tokens a (rule reader))
    (f : α → β) : Accepts reader tokens (f a) ((rule reader).1.map f, (rule reader).2) := by
  obtain ⟨later, hresult, hadvances⟩ := haccepts
  exact ⟨later, by rw [hresult]; rfl, hadvances⟩

theorem Ends.map {rule : Rule α} {outcome : Option α}
    (hends : Ends reader tokens outcome reports (rule reader)) (f : α → β) :
    Ends reader tokens (outcome.map f) reports ((rule reader).1.map f, (rule reader).2) :=
  ⟨by rw [hends.1], hends.2⟩

/-- A rule behind one that accepts. -/
private theorem Accepts.bind_ends {rule : Rule α} {next : α → Rule β} {a : α} {outcome : Option β}
    (hrule : Accepts reader front a (rule reader))
    (hnext : ∀ later, rule reader = (some a, later) → reader.Advances front later →
      Ends later back outcome reports (next a later)) :
    Ends reader (front ++ back) outcome reports ((rule >>= next) reader) := by
  obtain ⟨later, hresult, hadvances⟩ := hrule
  obtain ⟨houtcome, hpasses⟩ := hnext later hresult hadvances
  rw [bind_apply, hresult]
  exact ⟨houtcome, hadvances.trans_passes hpasses⟩

/-! ## Blocks -/

/-- A body ends behind its `end` with what became of its turns. -/
theorem ends_body {outcomes : List (Option Assignment)} {later : Reader} {last : Token}
    (hwithin : reader.Within 0 room)
    (hattempted : Attempted bodyGoesOn bodyItem reader outcomes later)
    (hpasses : reader.Passes front reports later)
    (hahead : reader.ahead = front ++ last :: rest) (hlast : last.lexeme = .keyword .endWord) :
    Ends reader (front ++ [last]) (outcomes.mapM id) reports (body reader) := by
  have hrest := hpasses.ahead_later hahead
  have hproper := hwithin.proper.steps hpasses.steps
  obtain ⟨hcurrent, hadvances⟩ := advances_token hproper hrest (by simp [hlast])
  obtain ⟨others, stop, hattempts, hresult⟩ := body_apply hwithin
  obtain ⟨rfl, rfl⟩ :=
    (hattempted.attempts (by simp [bodyGoesOn, hcurrent, hlast])).unique hattempts
  rw [hresult, hcurrent, if_pos hlast]
  exact ⟨rfl, hpasses.advances hadvances⟩

/-- A block whose header is accepted ends where its body does. -/
theorem ends_block {header : Rule β} {b : β} {word : Token} {outcome : Option (List Assignment)}
    (construct : Construct) (make : Token → β → List Assignment → α) (hready : reader.Ready room)
    (hahead : reader.ahead = word :: (front ++ rest)) (hopens : construct.OpenedBy word.lexeme)
    (hconstruct : construct ≠ .parenthesized)
    (hheader : ∀ {reader : Reader} {rest : List Token}, reader.Within 0 room →
      reader.ahead = front ++ rest → Accepts reader front b (header reader))
    (hbody : ∀ {later : Reader}, header.recoveringBy (Reader.recover .block)
      (reader.advanceInto construct) = (some b, later) → later.Within 0 room →
      later.ahead = rest → Ends later back outcome reports (body later)) :
    Ends reader (word :: (front ++ back)) (outcome.map (make word b)) reports
      (block construct header make reader) := by
  have hcurrent : reader.current = word := reader.current_of_ahead_eq_cons hahead
  obtain ⟨hwithin, hsplit⟩ := within_advanceInto hready hahead hopens hconstruct
  have hrest : Ends (reader.advanceInto construct) (front ++ back) (outcome.map (make word b))
      reports (blockRest header (make word) (reader.advanceInto construct)) := by
    refine ((hheader hwithin hsplit).recoveringBy _).bind_ends fun later hresult hadvances => ?_
    rw [map_apply]
    exact (hbody hresult (hwithin.advances hadvances) (hadvances.ahead_later hsplit)).map _
  obtain ⟨houtcome, hpasses⟩ := hrest
  have happly : block construct header make reader =
      ((blockRest header (make reader.current) (reader.advanceInto construct)).1,
        (blockRest header (make reader.current) (reader.advanceInto construct)).2.leaveFrom
          construct) := rfl
  rw [happly, hcurrent]
  exact ⟨houtcome, hpasses.leave hahead hopens (by simp [hconstruct])⟩

/-! ## Chains of blocks -/

theorem InChain.of_passes {later : Reader}
    (hready : reader.Ready room) (hpasses : reader.Passes tokens reports later) :
    InChain room later :=
  ⟨hready.steps hpasses.steps hpasses.enclosing_eq, Reader.clean_of_reported hpasses.reported_eq⟩

/-- The `elif` blocks of a chain end behind the turns of their loop. -/
theorem ends_elifs {outcomes : List (Option Guarded)} {later : Reader}
    (hchain : InChain room reader)
    (hattempted : Attempted elifFollows (guarded .elifBlock) reader outcomes later)
    (hpasses : reader.Passes tokens reports later) (hahead : reader.ahead = tokens ++ rest)
    (hnext : (rest.headD reader.endToken).lexeme ≠ .keyword .elifWord) :
    Ends reader tokens (outcomes.mapM id) reports
      (attemptAll elifFollows (guarded .elifBlock) reader) := by
  have hcurrent : later.current = rest.headD reader.endToken := by
    rw [Reader.current, hpasses.ahead_later hahead, hpasses.steps.frame.endToken_eq]
  have hattempts := hattempted.attempts (by simpa [elifFollows, hcurrent] using hnext)
  have hresult := attemptWhile_of_attempts repeats_elif.toAdvancing hchain hattempts
  rw [attemptAll, bind_apply, hresult]
  exact ⟨rfl, hpasses⟩

private theorem fst_conditional (reader : Reader) :
    (conditional reader).1 = chain (guarded .ifBlock reader).1
      (attemptAll elifFollows (guarded .elifBlock) (guarded .ifBlock reader).2).1
      (otherwiseAll
        (attemptAll elifFollows (guarded .elifBlock) (guarded .ifBlock reader).2).2).1 := by
  rw [conditional_eq, attempt_bind_apply, followers, attempt_bind_apply, lastBlock,
    attempt_bind_apply, ofOption]

/-- A conditional ends behind its last block, whatever became of its blocks. -/
theorem ends_conditional {head : Option Guarded} {elifs : Option (List Guarded)}
    {otherwise : Option (Option Otherwise)} {first second third : List Diagnostic}
    (hhead : Ends reader front head first (guarded .ifBlock reader))
    (helifs : ∀ later, reader.Passes front first later →
      Ends later middle elifs second (attemptAll elifFollows (guarded .elifBlock) later))
    (hotherwise : ∀ later, reader.Passes (front ++ middle) (first ++ second) later →
      Ends later back otherwise third (otherwiseAll later)) :
    Ends reader (front ++ (middle ++ back)) (chain head elifs otherwise)
      (first ++ (second ++ third)) (conditional reader) := by
  obtain ⟨hfirst, hpassed⟩ := hhead
  obtain ⟨hsecond, hmore⟩ := helifs _ hpassed
  obtain ⟨hthird, hlast⟩ := hotherwise _ (hpassed.trans hmore)
  refine ⟨by rw [fst_conditional, hfirst, hsecond, hthird], ?_⟩
  rw [snd_conditional]
  exact hpassed.trans (hmore.trans hlast)

end Rule

end LoopLang
