import SharedOwnership.Machine.Step

/-!
# How long a run may last

Each task, each handle and each release action that was not started has a weight, which covers what
it may still bring about: the commands of a script count with the scripts nested in them. Every step
lowers the weight of the machine, so its weight is enough fuel to run it to the end.

## Main definitions

* `Machine.weight` — the weight of a machine.
* `Machine.finish` — run a machine until it halts.
-/

namespace SharedOwnership

/-- The weight of a handle: more than what its drop adds to the stack. -/
def handleWeight : Nat := 4

/-- The weight of what every command may do: make handles, drop some, put some back. -/
def commandWeight : Nat := 32

mutual

/-- The weight of a command. -/
def Command.weight : Command → Nat
  | .adopt _ _ _ _ _ script => commandWeight + scriptWeight script
  | .replace _ _ _ script => commandWeight + scriptWeight script
  | .raceDrop handles => commandWeight + 2 * handleWeight * handles.length
  | _ => commandWeight

/-- The weight of a script: that of its commands and of the reports after them. -/
def Command.scriptWeight : List Command → Nat
  | [] => 0
  | c :: cs => c.weight + 1 + Command.scriptWeight cs

end

/-- The weight of a release action that was not started, with the end of the teardown. -/
def ReleaseAction.weight : ReleaseAction → Nat
  | .discard => 2
  | .scripted _ _ script _ => Command.scriptWeight script + 4

/-- The weight of what the end of a command waits for. -/
def Pending.weight : Pending → Nat
  | .answer _ => 0
  | .failed _ _ => 1
  | .observed => handleWeight + 1

/-- The weight of a task. -/
def Task.weight : Task → Nat
  | .perform c => c.weight
  | .drop _ => handleWeight
  | .throw _ | .resume _ => 2
  | .report | .finish _ | .destroy _ | .join => 1
  | .spawn handles => 1 + 2 * handleWeight * handles.length
  | .settle puts pending => 1 + (handleWeight + 1) * puts.length + pending.weight

/-- The weight of a control block: that of its release action until it is started. -/
def Block.weight (b : Block) : Nat := (b.action.map ReleaseAction.weight).getD 0

/-- The weight of a resource: that of the handles it holds. -/
def Resource.weight (r : Resource) : Nat := handleWeight * r.links.length

/-- The sum of the weights of what is in a table. -/
def Table.weight {α : Type} (w : α → Nat) (t : Table α) : Nat :=
  (t.entries.map fun a? => (a?.map w).getD 0).foldr (· + ·) 0

/-- The weight of a state. -/
def State.weight (s : State) : Nat :=
  handleWeight * s.slots.entries.length + s.heap.blocks.weight Block.weight +
    s.heap.resources.weight Resource.weight

namespace Machine

/-- The weight of a machine. -/
def weight (m : Machine) : Nat :=
  m.state.weight + (m.stack.map Task.weight).foldr (· + ·) 0 +
    match m.control with
    | .unwinding _ => 1
    | _ => 0

/-- At most so many steps. -/
def steps : Nat → Machine → Machine
  | 0, m => m
  | fuel + 1, m => if m.halted then m else steps fuel m.step

/-- Run a machine until it halts. -/
def finish (m : Machine) : Machine := m.steps m.weight

end Machine

end SharedOwnership
