import LoopLang.Proofs.Reading.Contract

/-!
# Reading inside a construct

A construct is entered behind the token that opens it and left whatever becomes of the rule inside.
So a rule that reads sentences inside of it reads the same sentences behind the opening token, and
passes that token at least (`Rule.yields_inside`).
-/

namespace LoopLang

variable {α : Type}

/-! ## Opening tokens -/

theorem Construct.OpenedBy.ne_endOfInput {construct : Construct} {lexeme : Lexeme}
    (hopens : construct.OpenedBy lexeme) : lexeme ≠ .endOfInput := by
  rintro rfl
  cases construct <;> simp [Construct.OpenedBy] at hopens

theorem Construct.OpenedBy.ne_unknown {construct : Construct} {lexeme : Lexeme}
    (hopens : construct.OpenedBy lexeme) (found : Char) : lexeme ≠ .unknown found := by
  rintro rfl
  cases construct <;> simp [Construct.OpenedBy] at hopens

namespace Reader

variable {reader later : Reader} {construct : Construct} {room depth : Nat}

/-- A reader outside of all parentheses, with room for so many. -/
structure Ready (room : Nat) (reader : Reader) : Prop where
  proper : reader.Proper
  levelled : reader.Levelled
  depth_eq : reader.depth = 0
  limit_eq : reader.limit = room

theorem Within.ready (hwithin : reader.Within 0 room) : reader.Ready room :=
  ⟨hwithin.proper, hwithin.levelled, hwithin.depth_eq, by rw [hwithin.limit_eq, Nat.zero_add]⟩

theorem Ready.steps (hready : reader.Ready room) (hsteps : Steps reader later)
    (henclosing : later.enclosing = reader.enclosing) : later.Ready room where
  proper := hready.proper.steps hsteps
  levelled := hsteps.levelled hready.levelled
  depth_eq := (hready.levelled.depth_eq hsteps henclosing).trans hready.depth_eq
  limit_eq := hsteps.frame.limit_eq.trans hready.limit_eq

private theorem reported_advanceInto (hproper : reader.Proper)
    (hopens : construct.OpenedBy reader.current.lexeme) :
    (reader.advanceInto construct).reported = false := by
  obtain ⟨behind, hahead⟩ := hproper.ahead_eq_cons hopens.ne_endOfInput
  simpa [advanceInto] using reader.reported_advance (by simp [hahead])

theorem Ready.advanceInto (hready : reader.Ready room)
    (hopens : construct.OpenedBy reader.current.lexeme) (hconstruct : construct ≠ .parenthesized) :
    (reader.advanceInto construct).Within 0 room := by
  have hstep : Step reader (reader.advanceInto construct) :=
    .advanceInto hopens fun h => absurd h hconstruct
  refine ⟨hready.proper.steps (.single hstep), reported_advanceInto hready.proper hopens, by simp,
    hstep.levelled hready.levelled, ?_, ?_⟩
  · rw [depth_advanceInto, if_neg hconstruct, hready.depth_eq]
  · rw [hstep.frame.limit_eq, hready.limit_eq, Nat.zero_add]

theorem Within.advanceInto_parenthesized (hwithin : reader.Within depth (room + 1))
    (hparen : reader.current.lexeme = .mark .openParen) :
    (reader.advanceInto .parenthesized).Within (depth + 1) room := by
  have hlimit := hwithin.limit_eq
  have hstep : Step reader (reader.advanceInto .parenthesized) :=
    .advanceInto hparen fun _ => by rw [hwithin.depth_eq]; omega
  refine ⟨hwithin.proper.steps (.single hstep), reported_advanceInto hwithin.proper hparen, by simp,
    hstep.levelled hwithin.levelled, ?_, ?_⟩
  · rw [depth_advanceInto, if_pos rfl, hwithin.depth_eq]
  · rw [hstep.frame.limit_eq]
    omega

end Reader

namespace Rule

variable {reader : Reader} {single : Prop} {depth room : Nat}

/-- A sentence behind a token that opens it. -/
def Behind (token : Token) (P : List Token → α → Prop) (tokens : List Token) (a : α) : Prop :=
  ∃ rest, tokens = token :: rest ∧ P rest a

/-- A rule behind the current token. -/
theorem yields_advance_bind {P : List Token → α → Prop} {next : Token → Rule α}
    (hwithin : reader.Within depth room)
    (hend : reader.current.lexeme ≠ .endOfInput)
    (hknown : ∀ found, reader.current.lexeme ≠ .unknown found)
    (hnext : Reads single depth room P (next reader.current)) :
    Yields single (Behind reader.current P) reader ((advance >>= next) reader) := by
  have hadvances : Reader.Advances [reader.current] reader reader.advance :=
    .advance hwithin.proper hend hknown
  have hyields := hnext reader.advance (hwithin.advances hadvances)
  have hresult : (advance >>= next) reader = next reader.current reader.advance := rfl
  rw [hresult]
  rcases hrest : next reader.current reader.advance with ⟨_ | a, later⟩
  · rw [hrest] at hyields
    refine hadvances.refuses hyields fun tokens hviable => ?_
    obtain ⟨rest, a, hlexical, h⟩ := hviable
    exact ⟨rest, a, hlexical, _, rfl, h⟩
  · rw [hrest] at hyields
    obtain ⟨passed, hmore, h⟩ := hyields
    exact ⟨reader.current :: passed, hadvances.trans hmore, passed, rfl, h⟩

theorem advance_inside_apply (construct : Construct) (body : Token → Rule α) (reader : Reader) :
    (do let word ← advance; inside ⟨construct, word.location⟩ (body word) : Rule α) reader =
      ((body reader.current (reader.advanceInto construct)).1,
        (body reader.current (reader.advanceInto construct)).2.leaveFrom construct) := rfl

/-- A rule inside a construct, right behind the token that opens the construct. -/
theorem yields_inside {P : List Token → α → Prop} (construct : Construct)
    (body : Token → Rule α) (hproper : reader.Proper)
    (hopens : construct.OpenedBy reader.current.lexeme)
    (hdepth : construct = .parenthesized → reader.depth < reader.limit)
    (hbody : Yields single P (reader.advanceInto construct)
      (body reader.current (reader.advanceInto construct))) :
    Yields single (Behind reader.current P) reader
        ((do let word ← advance; inside ⟨construct, word.location⟩ (body word)) reader) ∧
      ((do let word ← advance; inside ⟨construct, word.location⟩ (body word) : Rule α)
        reader).2.ahead.length < reader.ahead.length := by
  have hstep : Reader.Step reader (reader.advanceInto construct) := .advanceInto hopens hdepth
  obtain ⟨behind, hahead⟩ := hproper.ahead_eq_cons hopens.ne_endOfInput
  have htail : (reader.advanceInto construct).ahead = behind := by
    simp [Reader.advanceInto, hahead]
  have hdiagnostics : (reader.advanceInto construct).diagnostics = reader.diagnostics := by
    rw [Reader.advanceInto, Reader.diagnostics_enter, Reader.diagnostics_descendInto]
    exact reader.diagnostics_advance_of_ne_unknown hopens.ne_unknown
  have hlength : (reader.advanceInto construct).ahead.length < reader.ahead.length := by
    rw [htail, hahead]
    simp
  rw [advance_inside_apply]
  refine ⟨?_, ?_⟩
  swap
  · rw [Reader.ahead_leaveFrom]
    exact (Yields.steps hbody).1.frame.ahead_suffix.length_le.trans_lt hlength
  -- The body stays inside the construct, so that the construct is what is left behind it.
  have hleave : Reader.Steps (reader.advanceInto construct)
      ((body reader.current (reader.advanceInto construct)).2.leaveFrom construct) :=
    (Yields.steps hbody).1.tail
      (.leave ((Yields.steps hbody).2.trans (reader.enclosing_advanceInto construct)))
  rcases hresult : body reader.current (reader.advanceInto construct) with ⟨_ | a, later⟩
  · rw [hresult] at hbody hleave
    obtain ⟨-, henclosing, passed, rest, cause, more, hrest, hviable, hreport, hmore⟩ := hbody
    refine ⟨.head hstep hleave, by simp [henclosing], reader.current :: passed, rest,
      cause, more, ?_, ?_, ?_, hmore⟩
    · rw [hahead, ← htail, hrest, List.cons_append]
    · obtain ⟨more, a, hlexical, h⟩ := hviable
      exact ⟨more, a, hlexical, passed ++ more, rfl, h⟩
    · rw [Reader.diagnostics_leaveFrom, hreport, hdiagnostics]
      simp [Reader.pointingAt, hstep.frame.endToken_eq]
  · rw [hresult] at hbody hleave
    obtain ⟨passed, ⟨-, hpassed, henclosing, hreported, hquiet⟩, h⟩ := hbody
    refine ⟨reader.current :: passed, ⟨.head hstep hleave, ?_, by simp [henclosing],
      by simpa using hreported, ?_⟩, passed, rfl, h⟩
    · rw [hahead, ← htail, hpassed, Reader.ahead_leaveFrom, List.cons_append]
    · rw [Reader.diagnostics_leaveFrom, hquiet, hdiagnostics]

end Rule

end LoopLang
