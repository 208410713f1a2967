import Concentric.Failure
import Concentric.Logging.Notice

/-! Cancellation: a signal that is given once, and callbacks that run when it is. A callback that
is registered before the signal waits for it; one that is registered later runs at once. An error
in one of the callbacks that waited keeps no other from running, but an interruption does. -/

namespace Concentric

/-- How far a failure goes: an error is passed over where the signal is given, an interruption ends
that too. -/
inductive Severity
  | error
  | interruption
  deriving DecidableEq, Repr

/-- A callback: it notes its name, registers others, gives the signal again if it is to, and fails
if it is to. -/
inductive Callback
  | mk (name : String) (others : List Callback) (cancels : Bool) (fails : Option Severity)
  deriving Repr, Inhabited

structure CallbackFault where
  name : String
  severity : Severity
  deriving DecidableEq, Repr

def CallbackFault.failure (f : CallbackFault) : Failure :=
  match f.severity with
  | .error => .refused (.raised f.name)
  | .interruption => .interrupted f.name

structure CallbackRun where
  noted : List String := []
  failed : Option CallbackFault := none
  deriving DecidableEq, Repr

def CallbackRun.isInterrupted (r : CallbackRun) : Bool :=
  r.failed.any fun f => f.severity == .interruption

namespace Callback

mutual

/-- Runs a callback. The signal has been given, so the others run at once and giving it again does
nothing; a failure of one of them is a failure of its own. -/
def run : Callback → CallbackRun
  | mk name others _ fails =>
    let r := runAll others
    ⟨name :: r.noted, r.failed.or (fails.map fun severity => ⟨name, severity⟩)⟩

def runAll : List Callback → CallbackRun
  | [] => {}
  | c :: cs =>
    let r := run c
    match r.failed with
    | some f => ⟨r.noted, some f⟩
    | none =>
      let rest := runAll cs
      ⟨r.noted ++ rest.noted, rest.failed⟩

end

end Callback

/-- A signal: whether it has been given, the callbacks that wait for it, and the names noted. -/
structure Cancellation where
  requested : Bool := false
  waiting : List Callback := []
  noted : List String := []

namespace Cancellation

structure Step where
  signal : Cancellation
  failure : Option Failure := none
  notices : List Notice := []

def note (s : Cancellation) (names : List String) : Cancellation :=
  { s with noted := s.noted ++ names }

/-- Registers a callback. One that runs at once fails for the one who registers it. -/
def register (s : Cancellation) (c : Callback) : Step :=
  if s.requested then
    let r := c.run
    { signal := s.note r.noted
      failure := r.failed.map (·.failure) }
  else { signal := { s with waiting := s.waiting ++ [c] } }

/-- Runs callbacks that waited, in their order. One that fails is told and the next one runs, but
after an interruption none does. -/
def deliver (s : Cancellation) : List Callback → Step
  | [] => { signal := s }
  | c :: cs =>
    let r := c.run
    if r.isInterrupted then { signal := s.note r.noted, failure := r.failed.map (·.failure) }
    else
      let rest := (s.note r.noted).deliver cs
      { rest with notices := (r.failed.map fun _ => .callbackFailed).toList ++ rest.notices }

/-- Gives the signal. No callback waits any longer, whether it comes to its turn or not. -/
def cancel (s : Cancellation) : Step :=
  if s.requested then { signal := s }
  else { s with requested := true, waiting := [] : Cancellation }.deliver s.waiting

theorem cancel_of_requested {s : Cancellation} (h : s.requested = true) :
    s.cancel = { signal := s } := by
  simp [cancel, h]

end Cancellation

end Concentric
