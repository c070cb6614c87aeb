import LoopLang.Proofs.Reading.Steps

/-!
# Steps that see the current token only

Most steps look at the current token and at nothing behind it, and do not ask how deep parentheses
may nest.  They would do the same in front of other tokens and with another limit
(`Reader.Nearsighted`).  So they pass no token, leave the limit alone (`Nearsighted.frozen`), and do
nothing that is about another token (`Nearsighted.concerns`).
-/

namespace LoopLang

namespace Reader

variable {reader x y : Reader} {tokens : List Token} {f : Reader → Reader}

/-- The reader in front of other tokens and with another limit. -/
def seeing (ahead : List Token) (endToken : Token) (limit : Nat) (reader : Reader) : Reader :=
  { reader with ahead := ahead, endToken := endToken, limit := limit }

/-- Readers that differ in nothing else. -/
theorem eq_seeing_of_eq (hreported : y.reported = x.reported)
    (henclosing : y.enclosing = x.enclosing) (hdepth : y.depth = x.depth)
    (hlog : y.log = x.log) : y = x.seeing y.ahead y.endToken y.limit := by
  rw [seeing, ← hreported, ← henclosing, ← hdepth, ← hlog]

/-- What a step does depends neither on the tokens behind the current one nor on the limit. -/
def Nearsighted (f : Reader → Reader) : Prop :=
  ∀ (reader : Reader) (ahead : List Token) (endToken : Token) (limit : Nat),
    ahead.headD endToken = reader.current →
      f (reader.seeing ahead endToken limit) = (f reader).seeing ahead endToken limit

/-! ## The steps -/

theorem nearsighted_record (event : Event) : Nearsighted (·.record event) :=
  fun _ _ _ _ _ => rfl

theorem nearsighted_report (token : Token) (cause : Cause) : Nearsighted (·.report token cause) :=
  fun _ _ _ _ _ => rfl

theorem nearsighted_reportStray : Nearsighted reportStray := by
  intro reader ahead endToken limit hcurrent
  have hsame : (reader.seeing ahead endToken limit).current = reader.current := hcurrent
  have hreported : (reader.seeing ahead endToken limit).reported = reader.reported := rfl
  unfold reportStray
  rw [hsame, hreported]
  split <;> rfl

theorem nearsighted_complain (wanted : Wanted) : Nearsighted (·.complain wanted) := by
  intro reader ahead endToken limit hcurrent
  have hsame : (reader.seeing ahead endToken limit).current = reader.current := hcurrent
  have hreported : (reader.seeing ahead endToken limit).reported = reader.reported := rfl
  have hcomplaint : (reader.seeing ahead endToken limit).complaint wanted =
      reader.complaint wanted := by
    unfold complaint
    rw [hsame]
    rfl
  show (reader.seeing ahead endToken limit).complain wanted =
    (reader.complain wanted).seeing ahead endToken limit
  unfold complain
  rw [hreported, hcomplaint, hsame]
  split <;> rfl

theorem nearsighted_refuseName (name : String) : Nearsighted (·.refuseName name) := by
  intro reader ahead endToken limit hcurrent
  have hsame : (reader.seeing ahead endToken limit).current = reader.current := hcurrent
  show (reader.seeing ahead endToken limit).refuseName name =
    (reader.refuseName name).seeing ahead endToken limit
  unfold refuseName
  rw [hsame]
  rfl

theorem nearsighted_enter (construct : Construct) (location : Location) :
    Nearsighted fun reader => (reader.descendInto construct).enter ⟨construct, location⟩ := by
  intro reader ahead endToken limit _
  cases construct <;> rfl

theorem nearsighted_leaveFrom (construct : Construct) : Nearsighted (·.leaveFrom construct) := by
  intro reader ahead endToken limit _
  show (reader.seeing ahead endToken limit).leaveFrom construct =
    (reader.leaveFrom construct).seeing ahead endToken limit
  unfold leaveFrom leave
  cases henclosing : reader.enclosing <;> cases construct <;>
    simp [seeing, record, ascendFrom, henclosing]

/-! ## What they have in common -/

namespace Nearsighted

/-- They leave the tokens and the limit as they are. -/
theorem frozen (hf : Nearsighted f) (reader : Reader) :
    f reader = (f reader).seeing reader.ahead reader.endToken reader.limit :=
  hf reader reader.ahead reader.endToken reader.limit rfl

theorem ahead_eq (hf : Nearsighted f) (reader : Reader) : (f reader).ahead = reader.ahead := by
  rw [hf.frozen reader]
  rfl

theorem endToken_eq (hf : Nearsighted f) (reader : Reader) :
    (f reader).endToken = reader.endToken := by
  rw [hf.frozen reader]
  rfl

theorem limit_eq (hf : Nearsighted f) (reader : Reader) : (f reader).limit = reader.limit := by
  rw [hf.frozen reader]
  rfl

/-- If the events of a step are about tokens in front of the reader, they are about the current
one. -/
theorem concerns (hf : Nearsighted f) (hframe : ∀ reader, Frame reader (f reader))
    (hcurrent : reader.current ∈ tokens) (hlog : ∀ event ∈ reader.log, event.Concerns tokens) :
    ∀ event ∈ (f reader).log, event.Concerns tokens := by
  -- With nothing behind the current token the step does the same.
  obtain ⟨events, hevents, hconcerns⟩ :=
    (hframe (reader.seeing [] reader.current reader.limit)).log_eq
  rw [hf reader [] reader.current reader.limit rfl] at hevents
  have hsame : (f reader).log = events ++ reader.log := hevents
  intro event hmem
  rw [hsame] at hmem
  rcases List.mem_append.mp hmem with hnew | hold
  · refine (hconcerns event hnew).mono fun token htoken => ?_
    rwa [show token = reader.current by simpa [sight, seeing] using htoken]
  · exact hlog event hold

end Nearsighted

end Reader

end LoopLang
