import LoopLang.Proofs.Outcome.Run
import LoopLang.Proofs.Reading.Progress

/-!
# What is behind a block

However badly a block is broken, what is read behind it is the rest of the text and not the rest of
the block.  A header that fails is followed by recovery, which ends behind an `end`
(`Reader.SkipsTo.atBoundary`); a body is read up to its `end`; and a chain of blocks, whether it is
read or skipped, goes on as long as `elif` or `else` follows.  In each of the three cases only the
end of input can come first.

`behind_blocks` states what the reading of statements relies on: `Reader.BehindBlock` holds of the
reader that a conditional, a loop or a skipped chain leaves.
-/

namespace LoopLang

/-- Recovery behind a block stops in front of no token. -/
private theorem Boundary.verdict_block_ne_before (opened : Nat) (lexeme : Lexeme) :
    Boundary.block.verdict opened lexeme ≠ .before := by
  unfold verdict
  grind

private theorem Boundary.eq_endWord_of_verdict_block {opened : Nat} {lexeme : Lexeme}
    (hverdict : Boundary.block.verdict opened lexeme = .behind) : lexeme = .keyword .endWord := by
  unfold verdict at hverdict
  grind

/-- Whether a construct of a kind is entered. -/
def Event.enters (construct : Construct) : Event → Bool
  | entered opening => opening.construct = construct
  | _ => false

namespace Reader

variable {reader middle later : Reader}

/-! ## Boundaries of blocks -/

/-- A reader has come to the end of input, or the token it passed last is an `end`. -/
def AtBoundary (reader later : Reader) : Prop :=
  later.current.lexeme = .endOfInput ∨
    ∃ passed last, reader.ahead = passed ++ last :: later.ahead ∧ last.lexeme = .keyword .endWord

/-- A reader has come to a boundary of blocks, and nothing is reported there unless it is the end of
input. -/
structure BehindBlock (reader later : Reader) : Prop where
  boundary : reader.AtBoundary later
  unreported : later.reported = true → later.current.lexeme = .endOfInput

private theorem AtBoundary.of_frame (hframe : Frame reader middle)
    (hboundary : middle.AtBoundary later) :
    reader.AtBoundary later := by
  rcases hboundary with hend | ⟨passed, last, hahead, hlast⟩
  · exact Or.inl hend
  · obtain ⟨front, hfront⟩ := hframe.ahead_suffix
    exact Or.inr ⟨front ++ passed, last, by rw [← hfront, hahead, List.append_assoc], hlast⟩

private theorem BehindBlock.of_frame (hframe : Frame reader middle)
    (hbehind : middle.BehindBlock later) :
    reader.BehindBlock later :=
  ⟨hbehind.boundary.of_frame hframe, hbehind.unreported⟩

private theorem current_leaveFrom (construct : Construct) :
    (reader.leaveFrom construct).current = reader.current := by
  rw [current, current, ahead_leaveFrom, endToken_leaveFrom]

private theorem BehindBlock.leaveFrom (hbehind : reader.BehindBlock later) (construct : Construct) :
    reader.BehindBlock (later.leaveFrom construct) where
  boundary := by
    have hboundary := hbehind.boundary
    rwa [AtBoundary, current_leaveFrom, ahead_leaveFrom]
  unreported := by
    rw [reported_leaveFrom, current_leaveFrom]
    exact hbehind.unreported

/-- Right behind an `end`. -/
private theorem behindBlock_advance (hproper : reader.Proper)
    (hend : reader.current.lexeme = .keyword .endWord) : reader.BehindBlock reader.advance := by
  obtain ⟨behind, hahead⟩ := hproper.ahead_eq_cons (by simp [hend])
  have hreported := reader.reported_advance (by simp [hahead])
  refine ⟨Or.inr ⟨[], reader.current, ?_, hend⟩, by simp [hreported]⟩
  rw [ahead_advance, hahead]
  rfl

/-! ## Skipped blocks -/

/-- Recovery behind a block stops at nothing but an `end`. -/
theorem SkipsTo.atBoundary {opened : Nat} (hskips : reader.SkipsTo .block opened later)
    (hproper : reader.Proper) : reader.AtBoundary later := by
  induction hskips with
  | atEnd hahead => exact Or.inl (hproper.current_lexeme_eq_endOfInput_iff.mpr hahead)
  | before hahead hverdict => exact absurd hverdict (Boundary.verdict_block_ne_before _ _)
  | behind hahead hverdict =>
      have hend := Boundary.eq_endWord_of_verdict_block hverdict
      exact (behindBlock_advance hproper hend).boundary
  | further hahead hverdict hrest ih =>
      exact (ih (hproper.of_frame frame_advance)).of_frame frame_advance

private theorem behindBlock_recover (hproper : reader.Proper) :
    reader.BehindBlock (reader.recover .block) := by
  have hproper' : (reader.recover .block).Proper := hproper.of_frame (frame_recover _)
  refine ⟨?_, fun hreported => ?_⟩
  · rw [recover, Boundary.skip_eq_skipFrom]
    exact (skipsTo_advanceBy .block 0 reader).atBoundary hproper
  · exact hproper'.current_lexeme_eq_endOfInput_iff.mpr (clean_recover_block hreported)

/-- Each block of a chain that is skipped ends at a boundary. -/
private theorem SkipsFollowers.behindBlock {front : Reader} (hskips : reader.SkipsFollowers later)
    (hframe : Frame front reader) (hproper : reader.Proper) (hbehind : front.BehindBlock reader) :
    front.BehindBlock later := by
  induction hskips with
  | stop => exact hbehind
  | turn hnext hmoves hrest ih =>
      exact ih (hframe.trans (frame_recover _)) (hproper.of_frame (frame_recover _))
        ((behindBlock_recover hproper).of_frame hframe)

private theorem behindBlock_skipChain (hproper : reader.Proper) :
    reader.BehindBlock reader.skipChain :=
  (skipsFollowers_skipChain hproper).behindBlock (frame_recover _)
    (hproper.of_frame (frame_recover _)) (behindBlock_recover hproper)

/-! ## Constructs that are entered -/

/-- Between two readers no construct of a kind is entered. -/
def EntersNo (construct : Construct) (reader later : Reader) : Prop :=
  ∃ events, later.log = events ++ reader.log ∧ ∀ event ∈ events, event.enters construct = false

private theorem not_entersNo_of_frame {construct : Construct} (hfirst : Frame reader middle)
    (hsecond : Frame (middle.advanceInto construct) later) : ¬ reader.EntersNo construct later := by
  rintro ⟨events, hevents, hnone⟩
  have hinto : Frame reader (middle.advance.descendInto construct) :=
    (hfirst.trans frame_advance).trans (frame_descendInto construct)
  obtain ⟨before, hbefore, -⟩ := hinto.log_eq
  obtain ⟨behind, hbehind, -⟩ := hsecond.log_eq
  have henter : (middle.advanceInto construct).log =
      .entered ⟨construct, middle.current.location⟩ :: (before ++ reader.log) := by
    rw [← hbefore]
    rfl
  have hsame : events = behind ++ .entered ⟨construct, middle.current.location⟩ :: before := by
    have hlog := hevents.symm.trans (hbehind.trans (congrArg (behind ++ ·) henter))
    rw [← List.cons_append, ← List.append_assoc] at hlog
    exact List.append_cancel_right hlog
  have hentered := hnone (.entered ⟨construct, middle.current.location⟩) (by simp [hsame])
  simp [Event.enters] at hentered

end Reader

namespace Rule

open Reader (BehindBlock Frame)

variable {α β : Type} {reader later : Reader}

/-! ## Blocks that are read -/

/-- The loop of a body ends in front of its `end` or at the end of input. -/
private theorem behindBlock_body (hproper : reader.Proper) :
    reader.BehindBlock (body reader).2 := by
  obtain ⟨outcomes, later, hattempts, hresult⟩ := exists_body passing_bodyItem.advancing hproper
  have hframe : Frame reader later := hattempts.keeps (Frame reader)
    (fun middle hmiddle _ => hmiddle.trans (framed_bodyItem middle)) .refl
  have hlater := hproper.of_frame hframe
  rw [hresult]
  split
  · rename_i hend
    exact (Reader.behindBlock_advance hlater hend).of_frame hframe
  · rename_i hend
    have hlast : later.current.lexeme = .endOfInput := by
      simpa [bodyGoesOn, hend] using hattempts.more_eq_false
    have hcomplained : (later.complain .endWord).current.lexeme = .endOfInput := by
      rw [Reader.current_complain, hlast]
    exact ⟨Or.inl hcomplained, fun _ => hcomplained⟩

private theorem behindBlock_blockRest {header : Rule β} (hheader : Framed header)
    (make : β → List Assignment → α) (hproper : reader.Proper) :
    reader.BehindBlock (blockRest header make reader).2 := by
  have hframe := hheader reader
  rw [blockRest, bind_apply, recoveringBy]
  rcases hresult : header reader with ⟨_ | b, later⟩
  · rw [hresult] at hframe
    exact (Reader.behindBlock_recover (hproper.of_frame hframe)).of_frame hframe
  · rw [hresult] at hframe
    have hbody := (behindBlock_body (hproper.of_frame hframe)).of_frame hframe
    dsimp only
    rw [map_apply]
    exact hbody

private theorem behindBlock_block {header : Rule β} (construct : Construct)
    (hheader : Framed header) (make : Token → β → List Assignment → α) (hproper : reader.Proper) :
    reader.BehindBlock (block construct header make reader).2 := by
  have hframe : Frame reader (reader.advanceInto construct) := Reader.frame_advanceInto construct
  rw [block, advance_inside_apply]
  exact ((behindBlock_blockRest hheader _ (hproper.of_frame hframe)).of_frame hframe).leaveFrom _

private theorem behindBlock_guarded (construct : Construct) (hproper : reader.Proper) :
    reader.BehindBlock (guarded construct reader).2 :=
  behindBlock_block construct framed_guard _ hproper

private theorem behindBlock_otherwise (hproper : reader.Proper) :
    reader.BehindBlock (otherwise reader).2 :=
  behindBlock_block .elseBlock framed_blockStart _ hproper

/-! ## Chains that are read -/

/-- A block is entered, whatever becomes of it. -/
private theorem frame_block {header : Rule β} (construct : Construct) (hheader : Framed header)
    (make : Token → β → List Assignment → α) :
    Frame (reader.advanceInto construct) (block construct header make reader).2 := by
  rw [block, advance_inside_apply]
  exact (framed_blockRest hheader _ _).trans (Reader.frame_leaveFrom _)

private theorem behindBlock_conditional (hproper : reader.Proper) :
    reader.BehindBlock (conditional reader).2 ∧
      (reader.EntersNo .elseBlock (conditional reader).2 →
        (conditional reader).2.current.lexeme.continuesChain = false) := by
  have hhead := framed_guarded .ifBlock reader
  have hsecond := hproper.of_frame hhead
  obtain ⟨outcomes, third, hattempts, -, helifs⟩ := attemptAll_apply passing_elif.advancing hsecond
  -- Every turn of the loop ends behind a block, so the loop ends behind the last one it has read.
  obtain ⟨hframe, hbehind⟩ : Frame reader third ∧ reader.BehindBlock third := by
    refine hattempts.keeps (fun later => Frame reader later ∧ reader.BehindBlock later)
      (fun middle hmiddle _ => ?_) ⟨hhead, behindBlock_guarded .ifBlock hproper⟩
    have hguarded := behindBlock_guarded .elifBlock (hproper.of_frame hmiddle.1)
    exact ⟨hmiddle.1.trans (framed_guarded .elifBlock middle), hguarded.of_frame hmiddle.1⟩
  rw [snd_conditional, helifs, otherwiseAll_apply]
  split
  · have hentered : Frame (third.advanceInto .elseBlock) (otherwise third).2 :=
      frame_block .elseBlock framed_blockStart _
    exact ⟨(behindBlock_otherwise (hproper.of_frame hframe)).of_frame hframe,
      fun hnone => absurd hnone (Reader.not_entersNo_of_frame hframe hentered)⟩
  · rename_i hother
    refine ⟨hbehind, fun _ => ?_⟩
    rw [Lexeme.continuesChain_eq_false_iff]
    exact ⟨by simpa [elifFollows] using hattempts.more_eq_false, hother⟩

end Rule

/-- Wherever in a source a conditional, a loop or a chain that is skipped begins, and whatever
becomes of it, it ends at the end of input or right behind an `end`, and only the end of input can
be reported there already.  Neither `elif` nor `else` follows a conditional that has entered no
`else` block, and neither follows a chain that was skipped. -/
theorem behind_blocks (source : String) (reader : Reader) (hreads : reader.ReadsFrom source) :
    reader.BehindBlock (Rule.conditional reader).2 ∧
      reader.BehindBlock (Rule.loop reader).2 ∧
      reader.BehindBlock reader.skipChain ∧
      (reader.EntersNo .elseBlock (Rule.conditional reader).2 →
        (Rule.conditional reader).2.current.lexeme ≠ .keyword .elifWord ∧
          (Rule.conditional reader).2.current.lexeme ≠ .keyword .elseWord) ∧
      reader.skipChain.current.lexeme ≠ .keyword .elifWord ∧
        reader.skipChain.current.lexeme ≠ .keyword .elseWord := by
  have hproper := hreads.proper
  obtain ⟨hconditional, hnext⟩ := Rule.behindBlock_conditional hproper
  have hskipped := (Reader.skipsFollowers_skipChain hproper).continuesChain_eq_false
  refine ⟨hconditional, Rule.behindBlock_guarded .loopBlock hproper,
    Reader.behindBlock_skipChain hproper, fun hnone => ?_,
    Lexeme.continuesChain_eq_false_iff.mp hskipped⟩
  exact Lexeme.continuesChain_eq_false_iff.mp (hnext hnone)

/-- A header that fails, a block in its place, and a clause that is cut off. -/
theorem behind_blocks_broken :
    (Reader.start "if x begin loopc : begin end end elif x" 0).BehindBlock
        (Rule.conditional (Reader.start "if x begin loopc : begin end end elif x" 0)).2 ∧
      (Rule.conditional
        (Reader.start "if x begin loopc : begin end end elif x" 0)).2.current.lexeme ≠
        .keyword .elifWord :=
  have hbehind := behind_blocks "if x begin loopc : begin end end elif x" _
    (Reader.readsFrom_start _ 0)
  ⟨hbehind.1, (hbehind.2.2.2.1 ⟨_, (List.append_nil _).symm, by decide +kernel⟩).1⟩

end LoopLang
