import LoopLang.Proofs.Blocks.Items
import LoopLang.Proofs.Outcome.FirstDiagnostic

/-!
# The fault of a line

A declaration or an assignment is a line: its last token is a semicolon, and no other token of it is
one.  A rule that reads such lines and does not recover (`Rule.ReadsLines`) fails inside the line it
stands at if the line is not a sentence, and what it reports is one diagnostic, at the first token
that no sentence can have where it stands, the fault of the line (`Rule.ReadsLines.exists_fault`).

The tokens before the fault can begin a sentence because the rule went on behind them.  That no
sentence goes on with the fault is seen by a second reader in front of such a sentence: it is in
step with the first one up to the fault, and it has nothing to report.
-/

namespace LoopLang

open Grammar

variable {α : Type}

theorem InLine.ne_semicolon {line : List Token} (hline : InLine line) :
    ∀ token ∈ line, token.lexeme ≠ .mark .semicolon := by
  intro token hmem hsemicolon
  have hinline := hline token hmem
  simp [hsemicolon, Lexeme.inLine] at hinline

/-- A semicolon behind tokens that are none. -/
structure Terminates (line : List Token) (semicolon : Token) : Prop where
  ne_semicolon : ∀ token ∈ line, token.lexeme ≠ .mark .semicolon
  lexeme_eq : semicolon.lexeme = .mark .semicolon

/-- A text has only one first semicolon. -/
theorem Terminates.unique {line others rest more : List Token} {semicolon other : Token}
    (hfirst : Terminates line semicolon) (hsecond : Terminates others other)
    (heq : line ++ semicolon :: rest = others ++ other :: more) :
    line = others ∧ semicolon = other ∧ rest = more :=
  append_cons_inj_of_first heq hfirst.ne_semicolon hfirst.lexeme_eq hsecond.ne_semicolon
    hsecond.lexeme_eq

/-- The first token that cannot stand where it does: sentences of a kind can begin with the tokens
before it, and none of them goes on with it. -/
structure IsFault (P : List Token → α → Prop) (before : List Token) (bad : Token) : Prop where
  viable : Viable P before
  refused : ∀ rest a, ¬ P (before ++ bad :: rest) a

/-! ## Readers with nothing behind them -/

namespace Reader

variable {reader later : Reader} {passed : List Token}

/-- The same reader, as if it had done nothing before. -/
def fresh (reader : Reader) : Reader := { reader with log := [] }

@[simp] theorem diagnostics_fresh (reader : Reader) : reader.fresh.diagnostics = [] := rfl

@[simp] theorem ahead_fresh (reader : Reader) : reader.fresh.ahead = reader.ahead := rfl

theorem Ready.fresh {room : Nat} (hready : reader.Ready room) : reader.fresh.Ready room :=
  ⟨⟨hready.proper.endToken_lexeme, hready.proper.ne_endOfInput⟩, hready.levelled, hready.depth_eq,
    hready.limit_eq⟩

/-- The tokens in front of a reader stand one behind the other. -/
def Sorted (reader : Reader) : Prop :=
  reader.sight.Pairwise fun before token => before.offset < token.offset

theorem Sorted.frame (hsorted : reader.Sorted) (hframe : Frame reader later) : later.Sorted := by
  refine List.Pairwise.sublist ?_ hsorted
  rw [sight, sight, hframe.endToken_eq]
  exact hframe.ahead_suffix.sublist.append_right _

/-- The same reader in front of other tokens. -/
def inFrontOf (reader : Reader) (tokens : List Token) : Reader := { reader with ahead := tokens }

private theorem Ready.inFrontOf {room : Nat} {tokens : List Token} (hready : reader.Ready room)
    (hknown : ∀ token ∈ tokens, token.lexeme ≠ .endOfInput) :
    (reader.inFrontOf tokens).Ready room :=
  ⟨⟨hready.proper.endToken_lexeme, hknown⟩, hready.levelled, hready.depth_eq, hready.limit_eq⟩

/-- Readers in front of texts that go on differently behind a token share the tokens up to it. -/
private theorem shares_inFrontOf {before after rest : List Token} {bad : Token}
    (hproper : reader.Proper) (hother : (reader.inFrontOf (before ++ bad :: rest)).Proper)
    (hsorted : reader.Sorted) (hahead : reader.ahead = before ++ bad :: after) :
    Shares bad.offset reader (reader.inFrontOf (before ++ bad :: rest)) := by
  have hne : (before ++ [bad]).map (·.lexeme) ≠ [] := by simp
  have hsight : reader.sight = (before ++ [bad]) ++ (after ++ [reader.endToken]) := by
    simp [sight, hahead]
  refine shares_of_prefix hne hproper hother ?_ ?_ ?_ rfl rfl rfl Iff.rfl
  · rw [hsight]
    exact (List.prefix_append _ _).map _
  · rw [sight, inFrontOf]
    simp
  · rw [Sorted, sight, hahead, List.append_assoc, List.cons_append] at hsorted
    rw [hsight, List.length_map, List.drop_left]
    exact (List.pairwise_cons.mp (List.pairwise_append.mp hsorted).2.1).1

/-- Nothing is out of order where nothing is reported. -/
theorem ordered_of_diagnostics_eq_nil (hproper : reader.Proper) (hquiet : reader.diagnostics = []) :
    Ordered reader.sight reader :=
  ⟨hproper, List.suffix_rfl, by simp [hquiet], by simp [hquiet], by simp [hquiet]⟩

end Reader

/-! ## Rules for lines -/

/-- A rule that reads sentences of a kind, all of them lines, and refuses one token and no more
where there is none.  What it does, it does without looking further than the current token. -/
structure Rule.ReadsLines (room : Nat) (P : List Token → α → Prop)
    (move : (Location → Location) → α → α) (rule : Rule α) : Prop where
  yields : ∀ {reader : Reader}, reader.Ready room → reader.reported = false → reader.ahead ≠ [] →
    Yields True P reader (rule reader)
  accepts : ∀ {reader : Reader} {tokens rest : List Token} {a : α}, P tokens a →
    reader.Ready room → reader.ahead = tokens ++ rest → Accepts reader tokens a (rule reader)
  line : ∀ {tokens : List Token} {a : α}, P tokens a →
    ∃ line semicolon, tokens = line ++ [semicolon] ∧ Terminates line semicolon
  known : ∀ {tokens : List Token} {a : α}, P tokens a → Bracketed tokens
  stays : ∀ {reader : Reader}, reader.Ready room → (rule reader).1 = none →
    ∃ passed, reader.ahead = passed ++ (rule reader).2.ahead ∧
      ∀ token ∈ passed, token.lexeme ≠ .mark .semicolon
  keeps : ∀ S : Simulation, S.Keeps (S.Same move) rule rule

namespace Rule.ReadsLines

open Reader

variable {room : Nat} {P : List Token → α → Prop} {move : (Location → Location) → α → α}
  {rule : Rule α} {reader : Reader} {line before after rest : List Token} {semicolon bad : Token}

/-- No sentence goes on with a token that a reader with nothing behind it has something to report
about. -/
private theorem refused (hlines : ReadsLines room P move rule) (hready : reader.Ready room)
    (hsorted : reader.Sorted) (hquiet : reader.diagnostics = [])
    (hahead : reader.ahead = before ++ bad :: after) {d : Diagnostic} (hspan : d.span = bad.span)
    (hreport : (rule reader).2.diagnostics = [d]) (a : α) : ¬ P (before ++ bad :: rest) a := by
  intro hP
  -- The same reader in front of the sentence accepts all of it, so it reports nothing.
  have hother : (reader.inFrontOf (before ++ bad :: rest)).Ready room :=
    hready.inFrontOf fun token hmem => ((hlines.known hP).known token hmem).1
  obtain ⟨last, hresult, hadvances⟩ := hlines.accepts hP hother (List.append_nil _).symm
  have hnothing : (rule (reader.inFrontOf (before ++ bad :: rest))).2.diagnostics = [] := by
    rw [hresult, hadvances.diagnostics_eq]
    exact hquiet
  have hshares := shares_inFrontOf hready.proper hother.proper hsorted hahead
  rcases hlines.keeps (Simulation.upTo bad.offset) hshares with
    ⟨-, hlast⟩ | hreported | ⟨-, hbehind⟩
  · rw [hlast.quiet_iff.mpr hnothing] at hreport
    contradiction
  · exact hreported hnothing
  · have hlt := hbehind d (by rw [hreport]; exact List.mem_singleton.mpr rfl)
    rw [hspan] at hlt
    exact lt_irrefl _ hlt

/-- A rule that fails has refused a token of its line. -/
private theorem exists_refused (hlines : ReadsLines room P move rule) (hready : reader.Ready room)
    (hreported : reader.reported = false) (hline : Terminates line semicolon)
    (hahead : reader.ahead = line ++ semicolon :: rest) (hnone : (rule reader).1 = none) :
    ∃ before bad after cause, line ++ [semicolon] = before ++ bad :: after ∧ Viable P before ∧
      (rule reader).2.diagnostics = reader.diagnostics ++ [⟨cause, bad.location, bad.span⟩] := by
  have hyields := hlines.yields hready hreported (by simp [hahead])
  rcases hresult : rule reader with ⟨_ | a, failed⟩
  · rw [hresult] at hyields
    obtain ⟨-, -, passed, behind, cause, more, hsplit, hviable, hreport, hsingle⟩ := hyields
    obtain rfl := hsingle trivial
    -- Only the last token of a sentence is a semicolon, and a whole sentence is accepted.
    have hpassed : ∀ token ∈ passed, token.lexeme ≠ .mark .semicolon := by
      obtain ⟨others, a, -, hP⟩ := hviable
      obtain ⟨front, stop, heq, hfront⟩ := hlines.line hP
      rcases List.eq_nil_or_concat others with rfl | ⟨others, last, rfl⟩
      · rw [List.append_nil] at hP
        obtain ⟨later, haccepts, -⟩ := hlines.accepts hP hready hsplit
        simp [haccepts] at hnone
      · rw [List.concat_eq_append, ← List.append_assoc] at heq
        have hsame := (List.append_inj' heq rfl).1
        exact fun token hmem => hfront.ne_semicolon token (hsame ▸ List.mem_append_left _ hmem)
    obtain ⟨others, rfl, rfl⟩ :=
      exists_append_of_first (hahead.symm.trans hsplit) hline.lexeme_eq hpassed
    obtain ⟨bad, after, hcons⟩ : ∃ bad after, others ++ [semicolon] = bad :: after :=
      List.exists_cons_of_ne_nil (by simp)
    have hbehind : others ++ semicolon :: rest = bad :: (after ++ rest) := by
      rw [List.append_cons, hcons, List.cons_append]
    refine ⟨passed, bad, after, cause, by rw [List.append_assoc, hcons], hviable, ?_⟩
    rw [hreport, pointingAt, hbehind]
    rfl
  · simp [hresult] at hnone

/-- A rule that fails in front of a line with nothing behind it reports the fault of the line, and
that only. -/
theorem exists_fault (hlines : ReadsLines room P move rule) (hready : reader.Ready room)
    (hreported : reader.reported = false) (hquiet : reader.diagnostics = [])
    (hsorted : reader.Sorted) (hline : Terminates line semicolon)
    (hahead : reader.ahead = line ++ semicolon :: rest) (hnone : (rule reader).1 = none) :
    ∃ before bad after d, line ++ [semicolon] = before ++ bad :: after ∧ IsFault P before bad ∧
      (rule reader).2.diagnostics = [d] ∧ d.PointsAt bad := by
  obtain ⟨before, bad, after, cause, hsplit, hviable, hreport⟩ :=
    hlines.exists_refused hready hreported hline hahead hnone
  rw [hquiet, List.nil_append] at hreport
  have hbad : reader.ahead = before ++ bad :: (after ++ rest) := by
    rw [hahead, List.append_cons, hsplit]
    simp
  refine ⟨before, bad, after, ⟨cause, bad.location, bad.span⟩, hsplit, ⟨hviable, fun others a =>
    hlines.refused hready hsorted hquiet hbad rfl hreport a⟩, hreport, ?_⟩
  have hsteps := (Yields.steps (hlines.yields hready hreported (by simp [hahead]))).1
  have hordered := (ordered_of_diagnostics_eq_nil hready.proper hquiet).steps hsorted hsteps
  obtain ⟨token, htoken, hpoints⟩ := hordered.points _ (by
    rw [hreport]
    exact List.mem_singleton.mpr rfl)
  have hmem : bad ∈ reader.sight := by simp [sight, hbad]
  rwa [eq_of_span_eq_of_pairwise hsorted htoken hmem hpoints.span_eq.symm] at hpoints

end Rule.ReadsLines

end LoopLang
