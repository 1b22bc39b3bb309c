import SharedOwnership.Handle
import SharedOwnership.Value
import SharedOwnership.Fault

/-!
# Answers and events

A command ends with one answer. What happens on the way, in control blocks and in release actions,
is recorded as events.

## Main definitions

* `Answer` — how a command ended.
* `Event` — what happened meanwhile.
* `Event.log?` — the log record of an event that has one.
-/

namespace SharedOwnership

/-- What a handle says about itself. -/
structure Inspection where
  kind : Kind
  ty : Ty
  useCount : Nat
  /-- Whether there is no resource to hand out; only owners know. -/
  isNull : Option Bool
  /-- Whether there is a pointer; only owners tell. -/
  hasPointer : Option Bool
  /-- Whether the resource is gone; only observers tell. -/
  expired : Option Bool
  deriving DecidableEq, Repr

/-- Whether there is no owner, as any handle can tell. -/
def Inspection.isGone (i : Inspection) : Bool := i.useCount = 0

/-- How a command ended. -/
inductive Answer
  | done
  | flag (b : Bool)
  | count (n : Nat)
  | value (v : Option Value)
  | text (s : String)
  /-- Whether the owner that a lock gave has no resource. -/
  | locked (isNull : Bool)
  | inspection (i : Inspection)
  | slots (names : List String)
  /-- What was left to observe after a race: the number of owners, and whether one more lock had no
  resource. -/
  | raced (useCount : Nat) (isNull : Bool)
  | refused (reason : Refusal)
  | panicked (p : Panic)
  /-- The control block could not be allocated; `same` says whether the previous failure was equal,
  if there was one. -/
  | failed (layout : Layout) (same : Option Bool)
  /-- The control block could not be allocated and the run ended. -/
  | aborted (layout : Layout)
  deriving DecidableEq, Repr

/-- What happened while a command was carried out. -/
inductive Event
  | allocated (block : Nat) (layout : Layout)
  | allocationFailed (layout : Layout)
  | releasing (block : Nat)
  | deallocating (block : Nat)
  | deallocated (block : Nat) (layout : Layout)
  /-- The release action of a number was entered with a resource, or with none. -/
  | entered (number : Nat) (value : Option Value)
  /-- A command of a release script ended. -/
  | performed (a : Answer)
  /-- A resource of which a record is told was dropped. -/
  | recordDropped (x : Int64)
  | nodeDropped (v : Int64)
  deriving DecidableEq, Repr

/-- How grave a log record is. -/
inductive Level
  | trace
  | warn
  deriving DecidableEq, Repr

/-- The log record of an event that has one. -/
def Event.log? : Event → Option (Level × String)
  | .allocationFailed layout =>
    some (.warn, "could not allocate a " ++ toString layout.size ++
      " byte control block, releasing the resource")
  | .releasing block => some (.trace, "releasing resource of control block #" ++ toString block)
  | .deallocating block => some (.trace, "deallocating control block #" ++ toString block)
  | _ => none

end SharedOwnership
