import SharedOwnership.Command.Decode
import SharedOwnership.Machine.Weight

/-!
# Sessions

A session carries out the commands of a script one after the other, starting from nothing. In the
end it drops what is left in the slots. After each command it tells the answer, the events, and the
control blocks whose counters are new or changed.

## Main definitions

* `Report` — what a session tells.
* `Report.ofScript` — the session of a script.
* `Report.ofDatum?` — the session of a script that a datum writes.
-/

namespace SharedOwnership

/-- What is told after a command. -/
structure StepReport where
  answer : Answer
  events : List Event
  /-- The control blocks whose counters are new or changed, with their counters. -/
  changed : List (Nat × Counts)
  deriving DecidableEq, Repr

/-- What is told after the last command. -/
structure ClosingReport where
  panics : List Panic
  events : List Event
  /-- The control blocks whose counters are new or changed, with their counters. -/
  changed : List (Nat × Counts)
  deriving DecidableEq, Repr

/-- What a session tells. A session that was aborted has no closing. -/
structure Report where
  steps : List StepReport
  closing : Option ClosingReport
  deriving DecidableEq, Repr

/-- The text for a script that cannot be read. -/
def unreadableMessage : String := "the input must be an object with a list ops"

namespace State

/-- Carry out a command to its end. -/
def perform (s : State) (c : Command) : Machine :=
  Machine.finish { state := s, stack := [.perform c] }

/-- The events since an earlier state, in order. -/
def eventsSince (s earlier : State) : List Event :=
  (s.trace.take (s.trace.length - earlier.trace.length)).reverse

/-- The control blocks whose counters are new or changed since an earlier state. -/
def changedSince (s earlier : State) : List (Nat × Counts) :=
  s.heap.counters.filter fun (l, counts) =>
    (earlier.heap.blocks.get? l).map Block.counts ≠ some counts

end State

/-- What is told of a run that was aborted, since an earlier state. -/
def StepReport.aborted (layout : Layout) (earlier s : State) : StepReport :=
  ⟨.aborted layout, s.eventsSince earlier, []⟩

/-- Empty the slots: the panics on the way, and the machine after the last drop. In each turn the
first slot goes; a release action may fill others, and it may abort the run. -/
def closeSlots : Nat → State → List Panic × Machine
  | 0, s => ([], { state := s })
  | fuel + 1, s =>
    match s.slots.entries with
    | [] => ([], { state := s })
    | (slot, _) :: _ =>
      let m := s.perform (.drop slot)
      match m.control with
      | .aborted _ => ([], m)
      | _ =>
        let (panics, closed) := closeSlots fuel m.state
        match m.state.answer with
        | .panicked p => (p :: panics, closed)
        | _ => (panics, closed)

namespace Report

/-- The end of a session: the slots are emptied. An abort on the way counts as a last step. -/
def close (s : State) : Report :=
  let (panics, m) := closeSlots s.weight s
  match m.control with
  | .aborted layout => ⟨[.aborted layout s m.state], none⟩
  | _ => ⟨[], some ⟨panics, m.state.eventsSince s, m.state.changedSince s⟩⟩

/-- The session of a script from a state on. -/
def fromState (s : State) : List Command → Report
  | [] => close s
  | c :: script =>
    let m := s.perform c
    match m.control with
    | .aborted layout => ⟨[.aborted layout s m.state], none⟩
    | _ =>
      let rest := fromState m.state script
      ⟨⟨m.state.answer, m.state.eventsSince s, m.state.changedSince s⟩ :: rest.steps, rest.closing⟩

/-- The session of a script. -/
def ofScript (script : List Command) : Report := fromState {} script

/-- The session of the script that a datum writes as the list `ops` of a record. -/
def ofDatum? (d : Datum) : Option Report :=
  match d.get "ops" with
  | .list ds => some (ofScript (Command.scriptOfData ds))
  | _ => none

end Report

end SharedOwnership
