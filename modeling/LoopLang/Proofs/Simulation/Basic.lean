import LoopLang.Proofs.Reading.Frames
import LoopLang.Proofs.Tree.Relocation
import Mathlib.Data.List.Forall2

/-!
# Two runs in step

Two readers that see the same lexemes do the same thing.  A `Simulation` says what two runs have in
common as long as they are in step, and what is left of it when they have parted.  They stay in step
through every step that a rule takes without looking at more than the current token, and they may
part only when a token is passed or when one of them runs out of room for a parenthesis.  What is
left then has to hold whatever the two runs do.

A rule keeps a simulation (`Simulation.Keeps`) if it takes readers in step to readers in step, with
values that are related, or to readers that have parted.  The lemmas here follow the ways in which
rules are put together.
-/

namespace LoopLang

open Rule

/-- What two runs have in common.  Their trees are compared with the locations moved: those of the
first run by `first`, those of the second by `second`. -/
structure Simulation where
  first : Location → Location
  second : Location → Location
  /-- The readers are at the same point of the two runs. -/
  InStep : Reader → Reader → Prop
  /-- The runs have parted before these readers. -/
  Parted : Reader → Reader → Prop
  /-- How much room for parentheses the runs have at the same point. -/
  Rooms : Nat → Nat → Prop
  proper {x y : Reader} (hstep : InStep x y) : x.Proper ∧ y.Proper
  lexeme_eq {x y : Reader} (hstep : InStep x y) : x.current.lexeme = y.current.lexeme
  location_eq {x y : Reader} (hstep : InStep x y) :
    first x.current.location = second y.current.location
  rooms_left {x y : Reader} (hstep : InStep x y) : Rooms (x.limit - x.depth) (y.limit - y.depth)
  rooms_pred {m n : Nat} (hrooms : Rooms (m + 1) (n + 1)) : Rooms m n
  near_advance {x y : Reader} (hstep : InStep x y) (hahead : x.ahead ≠ []) :
    InStep x.advance y.advance ∨ Parted x.advance y.advance
  inStep_complain {x y : Reader} (hstep : InStep x y) (wanted : Wanted) :
    InStep (x.complain wanted) (y.complain wanted)
  inStep_refuseName {x y : Reader} (hstep : InStep x y) {name : String}
    (hname : x.current.lexeme = .ident name) : InStep (x.refuseName name) (y.refuseName name)
  near_refuseParen {x y : Reader} (hstep : InStep x y)
    (hparen : x.current.lexeme = .mark .openParen) (hrooms : Rooms 0 0) :
    InStep x.refuseParen y.refuseParen ∨ Parted x.refuseParen y.refuseParen
  parted_refuseParen_first {x y : Reader} (hstep : InStep x y)
    (hparen : x.current.lexeme = .mark .openParen) {n : Nat} (hrooms : Rooms 0 (n + 1)) :
    Parted x.refuseParen (y.advanceInto .parenthesized)
  parted_refuseParen_second {x y : Reader} (hstep : InStep x y)
    (hparen : x.current.lexeme = .mark .openParen) {m : Nat} (hrooms : Rooms (m + 1) 0) :
    Parted (x.advanceInto .parenthesized) y.refuseParen
  inStep_enter {x y : Reader} (hstep : InStep x y) (construct : Construct) {l l' : Location}
    (hlocation : first l = second l') : InStep ((x.descendInto construct).enter ⟨construct, l⟩)
      ((y.descendInto construct).enter ⟨construct, l'⟩)
  inStep_leave {x y : Reader} (hstep : InStep x y) (construct : Construct) :
    InStep (x.leaveFrom construct) (y.leaveFrom construct)
  inStep_recovered {x y : Reader} (hstep : InStep x y) (boundary : Boundary) (skipped : Nat) :
    InStep (x.record (.recovered boundary skipped)) (y.record (.recovered boundary skipped))
  inStep_kept {x y : Reader} (hstep : InStep x y) {s s' : Statement}
    (hstatement : s.relocate first = s'.relocate second) :
    InStep (x.record (.kept s)) (y.record (.kept s'))
  parted_frames {x x' y y' : Reader} (hparted : Parted x y) (hfirst : Reader.Frame x x')
    (hsecond : Reader.Frame y y') : Parted x' y'

namespace Simulation

variable {S : Simulation} {α β γ δ ω : Type} {x y x' y' : Reader}

/-! ## Readers -/

/-- The readers are in step, or the runs have parted. -/
def Near (S : Simulation) (x y : Reader) : Prop := S.InStep x y ∨ S.Parted x y

theorem Near.frames (hnear : S.Near x y)
    (hstep : S.InStep x y → S.Near x' y') (hfirst : Reader.Frame x x')
    (hsecond : Reader.Frame y y') : S.Near x' y' := by
  rcases hnear with h | hparted
  · exact hstep h
  · exact Or.inr (S.parted_frames hparted hfirst hsecond)

theorem ahead_eq_nil_iff (hstep : S.InStep x y) : x.ahead = [] ↔ y.ahead = [] := by
  obtain ⟨hx, hy⟩ := S.proper hstep
  rw [← hx.current_lexeme_eq_endOfInput_iff, ← hy.current_lexeme_eq_endOfInput_iff,
    S.lexeme_eq hstep]

theorem ahead_ne_nil (hstep : S.InStep x y) (hend : x.current.lexeme ≠ .endOfInput) :
    x.ahead ≠ [] := by
  rwa [Ne, ← (S.proper hstep).1.current_lexeme_eq_endOfInput_iff]

theorem exists_ahead (hstep : S.InStep x y) :
    x.ahead = [] ∧ y.ahead = [] ∨ ∃ behind behind', x.ahead = x.current :: behind ∧
      y.ahead = y.current :: behind' := by
  cases hx : x.ahead with
  | nil => exact Or.inl ⟨rfl, (ahead_eq_nil_iff hstep).mp hx⟩
  | cons token behind =>
      cases hy : y.ahead with
      | nil => simp [(ahead_eq_nil_iff hstep).mpr hy] at hx
      | cons other behind' =>
          exact Or.inr ⟨behind, behind', by rw [x.current_of_ahead_eq_cons hx],
            by rw [y.current_of_ahead_eq_cons hy]⟩

/-! ## Results of rules -/

/-- The results of two rules: related outcomes and readers in step, or runs that have parted. -/
def Meets (S : Simulation) (R : α → β → Prop) (p : Option α × Reader) (q : Option β × Reader) :
    Prop :=
  Option.Rel R p.1 q.1 ∧ S.InStep p.2 q.2 ∨ S.Parted p.2 q.2

/-- Two rules take readers in step to results that meet. -/
def Keeps (S : Simulation) (R : α → β → Prop) (rule : Rule α) (other : Rule β) : Prop :=
  ∀ ⦃x y : Reader⦄, S.InStep x y → S.Meets R (rule x) (other y)

variable {R : α → β → Prop} {Q : γ → δ → Prop} {rule : Rule α} {other : Rule β}

/-- Readers that take one step more, with the same outcomes. -/
private theorem Meets.later {p : Option α × Reader} {q : Option β × Reader} (hmeets : S.Meets R p q)
    (hstep : S.InStep p.2 q.2 → S.InStep x' y') (hfirst : Reader.Frame p.2 x')
    (hsecond : Reader.Frame q.2 y') : S.Meets R (p.1, x') (q.1, y') := by
  rcases hmeets with ⟨hrel, h⟩ | hparted
  · exact Or.inl ⟨hrel, hstep h⟩
  · exact Or.inr (S.parted_frames hparted hfirst hsecond)

theorem Meets.map {p : Option α × Reader} {q : Option β × Reader} {f : α → γ} {g : β → δ}
    (hmeets : S.Meets R p q) (himp : ∀ a b, R a b → Q (f a) (g b)) :
    S.Meets Q (p.1.map f, p.2) (q.1.map g, q.2) := by
  rcases hmeets with ⟨hrel, hstep⟩ | hparted
  · left
    refine ⟨?_, hstep⟩
    generalize p.1 = outcome at hrel
    generalize q.1 = another at hrel
    cases hrel with
    | some h => exact .some (himp _ _ h)
    | none => exact .none
  · exact Or.inr hparted

theorem meets_none (hnear : S.Near x y) : S.Meets R (none, x) (none, y) :=
  hnear.imp (fun hstep => ⟨.none, hstep⟩) id

/-- A token that both readers pass, with values that are related. -/
theorem meets_advance (hstep : S.InStep x y) (hahead : x.ahead ≠ []) {a : α} {b : β} (h : R a b) :
    S.Meets R (some a, x.advance) (some b, y.advance) :=
  (S.near_advance hstep hahead).imp (fun hnext => ⟨.some h, hnext⟩) id

/-- One rule after another, where what is behind the first is compared reader by reader. -/
theorem meets_bind {next : α → Rule γ} {after : β → Rule δ} (hrule : S.Meets R (rule x) (other y))
    (hnext : ∀ a b later last, rule x = (some a, later) → other y = (some b, last) → R a b →
      S.InStep later last → S.Meets Q (next a later) (after b last))
    (hframed : ∀ a, Framed (next a)) (hafter : ∀ b, Framed (after b)) :
    S.Meets Q ((rule >>= next) x) ((other >>= after) y) := by
  rw [bind_apply, bind_apply]
  rcases hresult : rule x with ⟨outcome, later⟩
  rcases hother : other y with ⟨another, last⟩
  rw [hresult, hother] at hrule
  rcases hrule with ⟨hrel, hstep⟩ | hparted
  · cases hrel with
    | some h => exact hnext _ _ later last hresult hother h hstep
    | none => exact Or.inl ⟨.none, hstep⟩
  · right
    cases outcome <;> cases another
    · exact hparted
    · exact S.parted_frames hparted .refl (hafter _ _)
    · exact S.parted_frames hparted (hframed _ _) .refl
    · exact S.parted_frames hparted (hframed _ _) (hafter _ _)

/-! ## Single steps -/

theorem keeps_pure {a : α} {b : β} (h : R a b) : S.Keeps R (pure a) (pure b) :=
  fun _ _ hstep => Or.inl ⟨.some h, hstep⟩

theorem keeps_ofOption {a : Option α} {b : Option β} (h : Option.Rel R a b) :
    S.Keeps R (ofOption a) (ofOption b) :=
  fun _ _ hstep => Or.inl ⟨h, hstep⟩

theorem keeps_fail (wanted : Wanted) : S.Keeps R (fail wanted) (fail wanted) :=
  fun _ _ hstep => Or.inl ⟨.none, S.inStep_complain hstep wanted⟩

theorem keeps_expect {lexeme : Lexeme} (hlexeme : lexeme ≠ .endOfInput) (wanted : Wanted) :
    S.Keeps (fun _ _ => True) (expect lexeme wanted) (expect lexeme wanted) := by
  intro x y hstep
  rw [expect_apply, expect_apply, S.lexeme_eq hstep]
  split
  · rename_i hcurrent
    have hend : x.current.lexeme ≠ .endOfInput := by rwa [S.lexeme_eq hstep, hcurrent]
    exact meets_advance hstep (ahead_ne_nil hstep hend) trivial
  · exact keeps_fail wanted hstep

/-! ## Rules from rules -/

theorem Keeps.bind {next : α → Rule γ} {after : β → Rule δ} (hrule : S.Keeps R rule other)
    (hnext : ∀ a b, R a b → S.Keeps Q (next a) (after b)) (hframed : ∀ a, Framed (next a))
    (hafter : ∀ b, Framed (after b)) : S.Keeps Q (rule >>= next) (other >>= after) :=
  fun _ _ hstep =>
    meets_bind (hrule hstep) (fun a b _ _ _ _ h hlater => hnext a b h hlater) hframed hafter

/-- A token that both readers pass, and what is behind it. -/
theorem meets_advance_bind {next : Token → Rule α} {after : Token → Rule β} (hstep : S.InStep x y)
    (hahead : x.ahead ≠ [])
    (hnext : ∀ t u : Token, S.first t.location = S.second u.location → S.Keeps R (next t) (after u))
    (hframed : ∀ t, Framed (next t)) (hafter : ∀ u, Framed (after u)) :
    S.Meets R ((advance >>= next) x) ((advance >>= after) y) :=
  meets_bind (meets_advance hstep hahead (S.location_eq hstep))
    (fun t u _ _ _ _ hlocation hlater => hnext t u hlocation hlater) hframed hafter

/-- A rule inside a construct, behind the token that opens it. -/
theorem meets_inside {body : Token → Rule α} {body' : Token → Rule β} (construct : Construct)
    (hstep : S.InStep x y) (hahead : x.ahead ≠ [])
    (hbody : ∀ t u : Token, S.first t.location = S.second u.location → S.Keeps R (body t) (body' u))
    (hframed : ∀ t, Framed (body t)) (hframed' : ∀ u, Framed (body' u)) :
    S.Meets R ((do let word ← advance; inside ⟨construct, word.location⟩ (body word)) x)
      ((do let word ← advance; inside ⟨construct, word.location⟩ (body' word)) y) := by
  rw [advance_inside_apply, advance_inside_apply]
  have hlocation := S.location_eq hstep
  rcases S.near_advance hstep hahead with hnext | hparted
  · have hmeets := hbody _ _ hlocation (S.inStep_enter hnext construct hlocation)
    exact hmeets.later (fun hlater => S.inStep_leave hlater construct)
      (Reader.frame_leaveFrom _) (Reader.frame_leaveFrom _)
  · have hinto : ∀ reader : Reader, Reader.Frame reader.advance (reader.advanceInto construct) :=
      fun _ => (Reader.frame_descendInto _).trans (Reader.frame_enter _)
    have hfirst := (hinto x).trans ((hframed x.current _).trans (Reader.frame_leaveFrom construct))
    have hsecond :=
      (hinto y).trans ((hframed' y.current _).trans (Reader.frame_leaveFrom construct))
    exact Or.inr (S.parted_frames hparted hfirst hsecond)

theorem meets_recoveringBy {recovery : Reader → Reader} (hrule : S.Meets R (rule x) (other y))
    (hrecovery : ∀ {x y : Reader}, S.InStep x y → S.Near (recovery x) (recovery y))
    (hframe : ∀ reader, Reader.Frame reader (recovery reader)) :
    S.Meets R (rule.recoveringBy recovery x) (other.recoveringBy recovery y) := by
  unfold Rule.recoveringBy
  rcases hresult : rule x with ⟨outcome, later⟩
  rcases hother : other y with ⟨another, last⟩
  rw [hresult, hother] at hrule
  rcases hrule with ⟨hrel, hstep⟩ | hparted
  · cases hrel with
    | some h => exact Or.inl ⟨.some h, hstep⟩
    | none => exact meets_none (hrecovery hstep)
  · right
    cases outcome <;> cases another
    · exact S.parted_frames hparted (hframe _) (hframe _)
    · exact S.parted_frames hparted (hframe _) .refl
    · exact S.parted_frames hparted .refl (hframe _)
    · exact hparted

theorem Keeps.recoveringBy {recovery : Reader → Reader} (hrule : S.Keeps R rule other)
    (hrecovery : ∀ {x y : Reader}, S.InStep x y → S.Near (recovery x) (recovery y))
    (hframe : ∀ reader, Reader.Frame reader (recovery reader)) :
    S.Keeps R (rule.recoveringBy recovery) (other.recoveringBy recovery) :=
  fun _ _ hstep => meets_recoveringBy (hrule hstep) hrecovery hframe

theorem Keeps.attempt (hrule : S.Keeps R rule other) :
    S.Keeps (Option.Rel R) (attempt rule) (attempt other) :=
  fun _ _ hstep => (hrule hstep).imp (fun h => ⟨.some h.1, h.2⟩) id

/-! ## Loops -/

/-- A loop whose turns pass tokens keeps what its turns keep. -/
theorem keeps_repeatWhile {R : α → α → Prop} {select : Lexeme → Option ω}
    {step step' : ω → α → Rule α} (hconsumes : Consumes select step)
    (hconsumes' : Consumes select step')
    (hsteps : ∀ {x y : Reader}, S.InStep x y → x.ahead ≠ [] → ∀ choice a b,
      select x.current.lexeme = some choice → R a b →
        S.Meets R (step choice a x) (step' choice b y))
    {a b : α} (hrel : R a b) :
    S.Keeps R (repeatWhile select step a) (repeatWhile select step' b) := by
  have hfirst := hconsumes.progresses
  have hsecond := hconsumes'.progresses
  intro x y hstep
  -- Each turn passes a token in both runs, so the tokens of one of them are enough to count.
  induction hlength : x.ahead.length using Nat.strong_induction_on generalizing x y a b with
  | _ length ih =>
      obtain ⟨hx, hy⟩ := S.proper hstep
      have hlexeme := S.lexeme_eq hstep
      cases hselect : select x.current.lexeme with
      | none =>
          rw [repeatWhile_of_select_eq_none hfirst hx a hselect,
            repeatWhile_of_select_eq_none hsecond hy b (hlexeme ▸ hselect)]
          exact Or.inl ⟨.some hrel, hstep⟩
      | some choice =>
          have hahead := hconsumes.ahead_ne_nil hx hselect
          rw [repeatWhile_of_select_eq_some hfirst hx a hselect,
            repeatWhile_of_select_eq_some hsecond hy b (hlexeme ▸ hselect)]
          refine meets_bind (hsteps hstep hahead choice a b hselect hrel)
            (fun c d later last hresult _ h hlater => ?_) (framed_repeatWhile hconsumes.framed)
            (framed_repeatWhile hconsumes'.framed)
          have hlt := hconsumes.length_lt hahead choice a hselect
          rw [hresult, hlength] at hlt
          exact ih _ hlt h hlater rfl

/-- The outcomes of attempts are related one by one. -/
theorem keeps_attemptWhile {R : α → α → Prop} {rule : Rule α} {more : Lexeme → Bool}
    (hpassing : Passing more rule)
    (hrule : ∀ {x y : Reader}, S.InStep x y → more x.current.lexeme = true →
      S.Meets R (rule x) (rule y)) :
    S.Keeps (List.Forall₂ (Option.Rel R)) (attemptWhile more rule) (attemptWhile more rule) := by
  have hloop : S.Keeps (List.Forall₂ (Option.Rel R))
      (repeatWhile (another? more) (attemptTurn rule) [])
      (repeatWhile (another? more) (attemptTurn rule) []) := by
    refine keeps_repeatWhile hpassing.consumes hpassing.consumes ?_ .nil
    intro x y hstep _ _ outcomes others hselect hrel
    have hmeets := hrule hstep (another?_eq_some_iff.mp hselect)
    exact hmeets.imp (fun h => ⟨.some (.cons h.1 hrel), h.2⟩) id
  rw [attemptWhile_eq]
  exact hloop.bind (fun _ _ h => keeps_pure (List.rel_reverse h)) (fun _ => framed_pure _)
    fun _ => framed_pure _

theorem rel_mapM_id {R : α → β → Prop} {outcomes : List (Option α)} {others : List (Option β)}
    (hrel : List.Forall₂ (Option.Rel R) outcomes others) :
    Option.Rel (List.Forall₂ R) (outcomes.mapM id) (others.mapM id) := by
  induction hrel with
  | nil => exact .some .nil
  | @cons outcome another outcomes others hfirst _ ih =>
      cases hfirst with
      | none =>
          rw [mapM_id_none_cons, mapM_id_none_cons]
          exact .none
      | some h =>
          rw [mapM_id_some_cons, mapM_id_some_cons]
          generalize outcomes.mapM id = as at ih
          generalize others.mapM id = bs at ih
          cases ih with
          | none => exact .none
          | some hrest => exact .some (.cons h hrest)

/-! ## Trees -/

/-- Two parts of trees are the same once they are moved to where the runs are compared. -/
def Same (S : Simulation) (move : (Location → Location) → α → α) (a b : α) : Prop :=
  move S.first a = move S.second b

theorem map_eq_of_forall₂ {move : (Location → Location) → α → α} {as bs : List α}
    (hsame : List.Forall₂ (S.Same move) as bs) :
    as.map (move S.first) = bs.map (move S.second) := by
  induction hsame with
  | nil => rfl
  | cons hfirst _ ih => rw [List.map_cons, List.map_cons, ih, hfirst]

theorem map_eq_of_rel {move : (Location → Location) → α → α} {a b : Option α}
    (hsame : Option.Rel (S.Same move) a b) : a.map (move S.first) = b.map (move S.second) := by
  cases hsame with
  | none => rfl
  | some h => exact congrArg some h

end Simulation

end LoopLang
