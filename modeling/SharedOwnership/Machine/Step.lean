import SharedOwnership.Machine.Perform

/-!
# Steps of a run

A running machine takes the next task from its stack. A panic unwinds the stack: it drops the
handles it finds there, gives up the weak unit of every block whose release action it leaves, and
ends at the command that catches it. While something is dropped on the way, the panic waits below
it.

## Main definitions

* `Machine.advance` — the step of a running machine.
* `Machine.unwind` — the step of an unwinding machine.
* `Machine.step` — one step.
-/

namespace SharedOwnership

/-- Whether a panic waits below on the same thread. -/
def isUnwinding : List Task → Bool
  | [] => false
  | .resume _ :: _ => true
  | .join :: _ => false
  | _ :: rest => isUnwinding rest

namespace Machine

/-- A running machine with the given tasks on top of the rest of its stack. -/
def run (next : State × List Task) (rest : List Task) : Machine :=
  { state := next.1, stack := next.2 ++ rest }

/-- Find out what the end of a command waited for. -/
def resolve (s : State) (puts : List (String × Handle)) (pending : Pending) (rest : List Task) :
    Machine :=
  let settle (s : State) (above : List Task) (a : Answer) : Machine :=
    { state := s, stack := above ++ .settle puts (.answer a) :: rest }
  match pending with
  | .answer a => settle s [] a
  | .failed layout .report =>
    settle { s with lastFailure := some layout } []
      (.failed layout (s.lastFailure.map fun previous => decide (layout = previous)))
  | .failed layout .abort => { settle s [] (.aborted layout) with control := .aborted layout }
  | .observed =>
    match puts with
    | [] => settle s [] .done
    | (_, w) :: _ =>
      match s.heap.lock w with
      | (heap, .ok owner) =>
        settle { s with heap } [.drop owner] (.raced (s.heap.useCount w) owner.pointer.isNone)
      | (heap, .error p) => settle { s with heap } [] (.panicked p)

/-- Put handles back and answer. A handle that took a slot meanwhile is dropped once the slot has
its own handle again. -/
def settle (s : State) (puts : List (String × Handle)) (a : Answer) (rest : List Task) : Machine :=
  match puts with
  | [] => { state := { s with answer := a }, stack := rest }
  | (slot, h) :: puts =>
    let displaced := (s.slots.get? slot).toList.map .drop
    { state := s.put slot h, stack := displaced ++ .settle puts (.answer a) :: rest }

/-- The step of a running machine, whose next task is `t`. -/
def advance (s : State) (t : Task) (rest : List Task) : Machine :=
  match t with
  | .perform c => run (s.begin c) rest
  | .report => { state := s.record (.performed s.answer), stack := rest }
  | .drop h => run (s.giveBack h) rest
  | .finish block => { state := s.giveBackWeak block, stack := rest }
  | .destroy resource => run (s.destroy resource) rest
  | .throw p =>
    { state := s, control := if isUnwinding rest then .running else .unwinding p, stack := rest }
  | .resume p => { state := s, control := .unwinding p, stack := rest }
  | .join => { state := s, stack := rest }
  | .spawn [] => { state := s, stack := rest }
  | .spawn (h :: handles) => { state := s, stack := .drop h :: .join :: .spawn handles :: rest }
  | .settle puts (.answer a) => settle s puts a rest
  | .settle puts pending => resolve s puts pending rest

/-- The step of a machine unwound by `p`, whose next task is `t`. -/
def unwind (s : State) (p : Panic) (t : Task) (rest : List Task) : Machine :=
  match t with
  | .drop h => run (s.giveBack h) (.resume p :: rest)
  | .finish block => { state := s.abandon block, control := .unwinding p, stack := rest }
  | .resume q => { state := s, control := .unwinding q, stack := rest }
  | .spawn (h :: handles) =>
    { state := s, stack := .drop h :: .join :: .spawn handles :: .resume p :: rest }
  | .settle puts _ => { state := s, stack := .settle puts (.answer (.panicked p)) :: rest }
  | .perform _ | .report | .destroy _ | .throw _ | .join | .spawn [] =>
    { state := s, control := .unwinding p, stack := rest }

/-- Whether nothing is left to do. -/
def halted (m : Machine) : Bool :=
  match m.control with
  | .aborted _ => true
  | _ => m.stack.isEmpty

/-- One step; a machine that halted stays as it is. -/
def step (m : Machine) : Machine :=
  match m.control, m.stack with
  | .running, t :: rest => advance m.state t rest
  | .unwinding p, t :: rest => unwind m.state p t rest
  | _, _ => m

end Machine

end SharedOwnership
