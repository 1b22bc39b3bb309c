import SharedOwnership.Layout

/-!
# Faults

Three ways for a command to end without its result: a panic, which unwinds; a failed allocation of a
control block; and a refusal, which leaves everything as it was unless the command says otherwise.

## Main definitions

* `Panic`, `Panic.message` — what may unwind.
* `Layout.failureMessage`, `Layout.abortMessage` — the texts of a failed allocation.
* `Refusal`, `Refusal.message` — why a command is not carried out.
-/

namespace SharedOwnership

/-- What may unwind. -/
inductive Panic
  /-- An owner without a resource was dereferenced. -/
  | emptyDereference
  /-- The strong counter was above its limit. -/
  | strongOverflow
  /-- The weak counter was above its limit. -/
  | weakOverflow
  /-- A projection gave up. -/
  | projection
  /-- A projection was asked for a part that does not exist. -/
  | projectionRange
  /-- A release action gave up after its work. -/
  | release
  deriving DecidableEq, Repr

/-- The text of a panic. -/
def Panic.message : Panic → String
  | .emptyDereference => "dereferenced an empty Shared handle"
  | .strongOverflow => "strong reference count overflow"
  | .weakOverflow => "weak reference count overflow"
  | .projection => "projection panicked"
  | .projectionRange => "projection out of range"
  | .release => "release panicked"

namespace Layout

/-- The text of the failure to allocate a control block, where the caller is told. -/
def failureMessage (l : Layout) : String :=
  "failed to allocate a control block of " ++ toString l.size ++ " bytes (align " ++
    toString l.align ++ ")"

/-- The text of the failure to allocate a control block, where there is nobody to tell. -/
def abortMessage (l : Layout) : String :=
  "memory allocation of " ++ toString l.size ++ " bytes failed"

end Layout

/-- Why a command is not carried out. -/
inductive Refusal
  /-- A field of the command must be a text. -/
  | notText (field : String)
  /-- A field of the command must be a natural number below 2^64. -/
  | notNatural (field : String)
  | unknownCommand
  | noHandle (slot : String)
  | slotTaken (slot : String)
  | notDistinct
  | differentKinds
  | differentTypes
  | notComparable
  | notShared
  | notWeak
  | notNode
  | emptyHandle
  | noLink
  | noProjection
  | noBlock
  | cannotLeak
  | notLeaked
  | unknownRoute
  | unknownType
  | unknownStyle
  | notInteger
  | notArray
  | notString
  | notObject
  deriving DecidableEq, Repr

/-- The text of a refusal. -/
def Refusal.message : Refusal → String
  | .notText field => "field " ++ field ++ " must be a string"
  | .notNatural field => "field " ++ field ++ " must be a natural number"
  | .unknownCommand => "unknown op"
  | .noHandle slot => "no handle " ++ slot
  | .slotTaken slot => "slot " ++ slot ++ " is taken"
  | .notDistinct => "the two handles must differ"
  | .differentKinds => "the handles have different kinds"
  | .differentTypes => "the handles have different types"
  | .notComparable => "not comparable"
  | .notShared => "not a Shared"
  | .notWeak => "not a Weak"
  | .notNode => "not a Shared node"
  | .emptyHandle => "empty handle"
  | .noLink => "no such link"
  | .noProjection => "no such projection of this type"
  | .noBlock => "no such block"
  | .cannotLeak => "cannot leak that many"
  | .notLeaked => "not that many leaked"
  | .unknownRoute => "unknown via"
  | .unknownType => "unknown type"
  | .unknownStyle => "unknown spec"
  | .notInteger => "not a 64-bit integer"
  | .notArray => "not an array"
  | .notString => "not a string"
  | .notObject => "not an object"

end SharedOwnership
