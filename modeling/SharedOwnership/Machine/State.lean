import SharedOwnership.Answer
import SharedOwnership.Heap.Share
import SharedOwnership.Slots

/-!
# The state of a run

A run keeps the heap and the slots, and on a stack what is still to be done. Dropping a handle may
call for a release action, whose commands drop further handles; all of that is on the one stack, so
a state in the middle of a release action is a state like any other.

## Main definitions

* `State` — heap, slots and the records of the run.
* `Task` — one thing that is still to be done.
* `Machine` — a state, a stack of tasks, and whether a panic unwinds the stack.
-/

namespace SharedOwnership

/-- Heap, slots and the records of a run. -/
structure State where
  heap : Heap := {}
  slots : Slots := {}
  /-- The release actions that were numbered so far. -/
  numbered : Nat := 0
  /-- The last failed allocation that was reported. -/
  lastFailure : Option Layout := none
  /-- The answer of the command that ended last. -/
  answer : Answer := .done
  /-- All events so far, the newest first. -/
  trace : List Event := []

/-- What a command that waits for a teardown still has to find out. -/
inductive Pending
  | answer (a : Answer)
  /-- An allocation failed; the release action comes before the consequences. -/
  | failed (layout : Layout) (onFailure : OnFailure)
  /-- What the observer that waits to be put back sees. -/
  | observed
  deriving DecidableEq, Repr

/-- One thing that is still to be done. -/
inductive Task
  /-- Carry out a command. -/
  | perform (c : Command)
  /-- Record the answer of a command of a release script. -/
  | report
  /-- Drop a handle. -/
  | drop (h : Handle)
  /-- Give back the weak unit that the owners of a block held together. -/
  | finish (block : Nat)
  /-- Drop a resource. -/
  | destroy (resource : Nat)
  /-- Panic on behalf of a release action, unless a panic unwinds already. -/
  | throw (p : Panic)
  /-- Go on unwinding. -/
  | resume (p : Panic)
  /-- Wait for the thread that did what lies above. -/
  | join
  /-- Drop handles, each on a thread of its own. -/
  | spawn (handles : List Handle)
  /-- End a command: put handles back into their slots and answer. Panics go no further. -/
  | settle (puts : List (String × Handle)) (pending : Pending)

/-- Whether the stack is worked off, unwound, or abandoned. -/
inductive Control
  | running
  | unwinding (p : Panic)
  /-- The run ended because a control block of this layout could not be allocated. -/
  | aborted (layout : Layout)
  deriving DecidableEq, Repr

/-- A run: its state and what is still to be done, the next task first. -/
structure Machine where
  state : State := {}
  control : Control := .running
  stack : List Task := []

namespace State

/-- Record an event. -/
def record (s : State) (e : Event) : State := { s with trace := e :: s.trace }

/-- The handle in a slot. -/
def handle (s : State) (slot : String) : Except Refusal Handle :=
  match s.slots.get? slot with
  | some h => .ok h
  | none => .error (.noHandle slot)

/-- Whether a slot is vacant. -/
def vacant (s : State) (slot : String) : Except Refusal Unit :=
  match s.slots.get? slot with
  | some _ => .error (.slotTaken slot)
  | none => .ok ()

/-- Put a handle into a slot. -/
def put (s : State) (slot : String) (h : Handle) : State := { s with slots := s.slots.put slot h }

/-- Take the handle out of a slot. -/
def vacate (s : State) (slot : String) : State := { s with slots := s.slots.erase slot }

end State

end SharedOwnership
