import StackCompiler.Error
import StackCompiler.Event

/-!
# Runs

A stage of a compilation reports events and comes to a value or to an error.  The events that were
reported before an error are kept.
-/

namespace StackCompiler

/-- What a stage of a compilation reports, in order, and what it comes to. -/
structure Run (α : Type) where
  events : List Event
  result : Except CompileError α

namespace Run

/-- A run that reports nothing and has the given result. -/
def done {α : Type} (result : Except CompileError α) : Run α :=
  { events := [], result }

/-- One run after another; the second starts from the value of the first. -/
def andThen {α β : Type} (first : Run α) (next : α → Run β) : Run β :=
  match first.result with
  | .ok a =>
    let second := next a
    { events := first.events ++ second.events, result := second.result }
  | .error error => { events := first.events, result := .error error }

instance : Monad Run where
  pure a := done (.ok a)
  bind := andThen

/-- A run that reports events. -/
def report (events : List Event) : Run Unit :=
  { events, result := .ok () }

/-- A run that fails. -/
def fail {α : Type} (error : CompileError) : Run α :=
  done (.error error)

end Run

end StackCompiler
