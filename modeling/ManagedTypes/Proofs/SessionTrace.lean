import Mathlib.Data.List.Induction
import ManagedTypes.Session.Step

/-! Runs as lists of events. What holds of every run is proved by what one more event preserves. -/
namespace ManagedTypes

/-- One step of a run: an operation and the session that it finds. -/
structure Event where
  before : Session
  operation : Operation

namespace Event

def after (e : Event) : Session := (e.before.step e.operation).1
def reply (e : Event) : Reply := (e.before.step e.operation).2

end Event

namespace Session
variable (s : Session)

def trace (s : Session) : List Operation → List Event
  | [] => []
  | o :: os => ⟨s, o⟩ :: (s.step o).1.trace os

theorem run_append (os ps : List Operation) : (s.run (os ++ ps)).1 = ((s.run os).1.run ps).1 := by
  induction os generalizing s with
  | nil => rfl
  | cons o os ih => exact ih (s.step o).1

theorem run_snoc (os : List Operation) (o : Operation) :
    (s.run (os ++ [o])).1 = ((s.run os).1.step o).1 := s.run_append os [o]

theorem trace_append (os ps : List Operation) :
    s.trace (os ++ ps) = s.trace os ++ (s.run os).1.trace ps := by
  induction os generalizing s with
  | nil => rfl
  | cons o os ih => exact congrArg (⟨s, o⟩ :: ·) (ih (s.step o).1)

theorem trace_snoc (os : List Operation) (o : Operation) :
    s.trace (os ++ [o]) = s.trace os ++ [⟨(s.run os).1, o⟩] := s.trace_append os [o]

/-- What holds of a session without a past, and goes on to hold with each event, holds after every run. -/
theorem run_induction {motive : List Event → Session → Prop} (start : motive [] s)
    (step : ∀ es (e : Event), motive es e.before → motive (es ++ [e]) e.after)
    (os : List Operation) : motive (s.trace os) (s.run os).1 := by
  induction os using List.reverseRecOn with
  | nil => exact start
  | append_singleton os o ih =>
    rw [trace_snoc, run_snoc]
    exact step _ ⟨_, o⟩ ih

/-- What every event preserves is preserved by runs. -/
theorem run_invariant {P : Session → Prop} (step : ∀ e : Event, P e.before → P e.after) (h : P s)
    (os : List Operation) : P (s.run os).1 :=
  s.run_induction (motive := fun _ t => P t) h (fun _ e => step e) os

end Session

end ManagedTypes
