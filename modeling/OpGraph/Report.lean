import OpGraph.Event
import OpGraph.Failure

/-!
# Reports

A computation that may fail and that keeps a journal of events.  The journal survives a failure.
Forgetting the journal, `Report.outcome`, takes sequences of reports to sequences of plain
results, so statements about results need not mention events.
-/

namespace OpGraph

/-- The journal of a computation and its result. -/
@[ext]
structure Report (α : Type) where
  /-- The events in the order of their occurrence. -/
  journal : List Event
  /-- The result, or the cause of the failure. -/
  outcome : Except Failure α

namespace Report

variable {α β : Type}

/-- A result without events. -/
protected def pure (value : α) : Report α :=
  ⟨[], .ok value⟩

/-- Continue with the result of a report; a failure is final. -/
protected def bind (report : Report α) (next : α → Report β) : Report β :=
  match report.outcome with
  | .ok value =>
    let later := next value
    ⟨report.journal ++ later.journal, later.outcome⟩
  | .error cause => ⟨report.journal, .error cause⟩

instance : Monad Report where
  pure := Report.pure
  bind := Report.bind

/-- A failure without events. -/
def fail (cause : Failure) : Report α :=
  ⟨[], .error cause⟩

/-- A plain result without events. -/
def ofExcept (outcome : Except Failure α) : Report α :=
  ⟨[], outcome⟩

/-- A single event. -/
def note (event : Event) : Report Unit :=
  ⟨[event], .ok ()⟩

/-- Some events, in order. -/
def noteAll (events : List Event) : Report Unit :=
  ⟨events, .ok ()⟩

@[simp]
theorem outcome_pure (value : α) : (pure value : Report α).outcome = .ok value := rfl

@[simp]
theorem outcome_bind (report : Report α) (next : α → Report β) :
    (report >>= next).outcome = report.outcome >>= fun value => (next value).outcome := by
  show (Report.bind report next).outcome = Except.bind report.outcome _
  unfold Report.bind
  cases report.outcome <;> rfl

@[simp]
theorem outcome_fail (cause : Failure) : (fail cause : Report α).outcome = .error cause := rfl

@[simp]
theorem outcome_ofExcept (outcome : Except Failure α) : (ofExcept outcome).outcome = outcome := rfl

@[simp]
theorem outcome_note (event : Event) : (note event).outcome = .ok () := rfl

@[simp]
theorem outcome_noteAll (events : List Event) : (noteAll events).outcome = .ok () := rfl

instance : LawfulMonad Report :=
  LawfulMonad.mk' Report
    (by
      intro _ report
      show Report.bind report (fun value => ⟨[], .ok (id value)⟩) = report
      obtain ⟨journal, outcome⟩ := report
      cases outcome <;> simp [Report.bind])
    (by
      intro _ _ value next
      show Report.bind (Report.pure value) next = next value
      simp [Report.bind, Report.pure])
    (by
      intro _ _ _ report next last
      show Report.bind (Report.bind report next) last =
        Report.bind report fun value => Report.bind (next value) last
      obtain ⟨journal, outcome⟩ := report
      cases outcome with
      | error cause => rfl
      | ok value =>
        simp only [Report.bind]
        cases (next value).outcome <;> simp)

end Report

end OpGraph
