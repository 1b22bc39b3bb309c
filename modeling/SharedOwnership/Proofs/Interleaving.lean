import Mathlib.Data.Multiset.Count
import Mathlib.Logic.Relation
import SharedOwnership.Block
import SharedOwnership.Table

/-!
# Threads that share a block

Any number of threads work on one control block. A thread carries out one operation after the other
on any handles of the block, and inside the release action it may carry out more of them. Operations
are taken apart into their accesses to the counters, each of which is one step, and the steps of
different threads are interleaved in any order. Nothing here asks whether the block is still
allocated: that no thread looks at a block that was freed is a theorem and not an assumption.

A counter above its limit makes an operation panic as it does in a single thread. The panic is
caught where it arises, so no release action is unwound. Counters do not wrap around.

## Main definitions

* `Frame` — an operation in progress, at its next access.
* `Frame.Access` — what an access does.
* `Threads` — a block, its handles, and what every thread is doing.
* `Threads.Step` — one step of one thread.
* `Threads.Reachable` — whether threads that start with one owner can come to this.
-/

namespace SharedOwnership

/-- An operation in progress on a thread, at its next access to the block. -/
inductive Frame
  /-- A handle of kind `k` is to be made from the handle labelled `h`: to add a unit. -/
  | add (k : Kind) (h : Nat)
  /-- The observer labelled `h` is locked: to read the strong counter. -/
  | load (h : Nat)
  /-- The observer labelled `h` is locked, and `n` was read: to exchange `n` for `n + 1`. -/
  | exchange (h n : Nat)
  /-- A unit is given back: to subtract it. -/
  | give (k : Kind)
  /-- The last strong unit was given back: to start the release action. -/
  | dispose
  /-- The release action runs: to return from it. -/
  | release
  /-- The last weak unit was given back: to free the block. -/
  | destroy
  deriving DecidableEq, Repr

/-- What is noted of a teardown. -/
inductive Phase
  | started
  | returned
  | freed
  deriving DecidableEq, Repr

/-- The phases of a teardown in their order. -/
def Phase.order : List Phase := [.started, .returned, .freed]

/-- What giving back the last unit of a kind brings about. -/
def Kind.teardown : Kind → Frame
  | .strong => .dispose
  | .weak => .destroy

namespace Frame

/-- The handle that an operation borrows. -/
def borrowed? : Frame → Option Nat
  | .add _ h | .load h | .exchange h _ => some h
  | .give _ | .dispose | .release | .destroy => none

/-- Whether an operation borrows a handle of the right kind: an owner is made from an owner, and
what is locked is an observer. -/
def Borrows (handles : Table Kind) : Frame → Prop
  | .add k h => ∃ j, handles.get? h = some j ∧ (k = .strong → j = .strong)
  | .load h | .exchange h _ => handles.get? h = some .weak
  | .give _ | .dispose | .release | .destroy => True

end Frame

/-- What an access leaves behind. -/
structure Effect where
  block : Block
  /-- What is left of the operation. -/
  frames : List Frame := []
  /-- The kind of the handle that it made, if it made one. -/
  made : Option Kind := none
  /-- What is noted of a teardown. -/
  told : List Phase := []

/-- The next access of an operation to the block `b`. -/
inductive Frame.Access (b : Block) : Frame → Effect → Prop
  | add {k : Kind} {h : Nat} (hle : b.counts.get k ≤ unitLimit) :
    Access b (.add k h) { block := (b.addUnit k).1, made := some k }
  /-- The unit is lost. -/
  | overflow {k : Kind} {h : Nat} (hlt : unitLimit < b.counts.get k) :
    Access b (.add k h) { block := (b.addUnit k).1 }
  | load {h : Nat} : Access b (.load h) { block := b, frames := [.exchange h b.counts.strong] }
  /-- There is no owner to join. -/
  | refuse {h : Nat} : Access b (.exchange h 0) { block := b }
  | exceed {h n : Nat} (hn : unitLimit < n) : Access b (.exchange h n) { block := b }
  | exchange {h n : Nat} (hpos : 0 < n) (hle : n ≤ unitLimit) (hn : b.counts.strong = n) :
    Access b (.exchange h n)
      { block := { b with counts := b.counts.modify .strong fun _ => n + 1 }, made := some .strong }
  /-- An exchange fails because the counter has changed, or for no reason. -/
  | retry {h n : Nat} (hpos : 0 < n) (hle : n ≤ unitLimit) :
    Access b (.exchange h n) { block := b, frames := [.exchange h b.counts.strong] }
  | give {k : Kind} (hmore : b.counts.get k ≠ 1) : Access b (.give k) { block := b.removeUnit k }
  | giveLast {k : Kind} (hone : b.counts.get k = 1) :
    Access b (.give k) { block := b.removeUnit k, frames := [k.teardown] }
  | dispose : Access b .dispose
      { block := { b with action := none }, frames := [.release], told := [.started] }
  /-- The weak unit that the owners held together is given back after the release action. -/
  | release : Access b .release { block := b, frames := [.give .weak], told := [.returned] }
  | destroy : Access b .destroy { block := b, told := [.freed] }

/-- A control block, its handles, and what every thread is doing. -/
structure Threads where
  block : Block
  /-- The handles that were not dropped. -/
  handles : Table Kind
  /-- The operations of every thread; one that lies on another is carried out inside it. -/
  calls : List (List Frame)
  /-- What was noted of the teardown so far, in order. -/
  log : List Phase := []

namespace Threads

/-- A new block with one owner, and `n` threads. -/
def init (n : Nat) (layout : Layout) (resource : Option Nat) (action : ReleaseAction) :
    Threads where
  block := { layout, resource, action := some action }
  handles := Table.empty.insert .strong
  calls := List.replicate n []

/-- All operations in progress. -/
def frames (t : Threads) : Multiset Frame := (t.calls.flatten : List Frame)

/-- Whether a thread may begin an operation: it is idle, or inside the release action. -/
def Ready (stack : List Frame) : Prop := stack = [] ∨ ∃ below, stack = .release :: below

/-- One step of one thread: it begins an operation, or it makes the next access of one. A handle is
borrowed by any number of operations at once, and it is dropped when none borrows it. -/
inductive Step (t : Threads) : Threads → Prop
  /-- An owner or an observer is made from a handle. -/
  | add {i : Nat} {stack : List Frame} {j k : Kind} {h : Nat} (hi : t.calls[i]? = some stack)
      (hready : Ready stack) (hh : t.handles.get? h = some j) (hk : k = .strong → j = .strong) :
    Step t { t with calls := t.calls.set i (.add k h :: stack) }
  /-- An observer is locked. -/
  | lock {i : Nat} {stack : List Frame} {h : Nat} (hi : t.calls[i]? = some stack)
      (hready : Ready stack) (hh : t.handles.get? h = some .weak) :
    Step t { t with calls := t.calls.set i (.load h :: stack) }
  /-- A handle is dropped. -/
  | drop {i : Nat} {stack : List Frame} {k : Kind} {h : Nat} (hi : t.calls[i]? = some stack)
      (hready : Ready stack) (hh : t.handles.get? h = some k)
      (hfree : ∀ f ∈ t.frames, f.borrowed? ≠ some h) :
    Step t { t with
      handles := t.handles.erase h,
      calls := t.calls.set i (.give k :: stack) }
  | access {i : Nat} {f : Frame} {below : List Frame} {e : Effect}
      (hi : t.calls[i]? = some (f :: below)) (he : f.Access t.block e) :
    Step t {
      block := e.block,
      handles := e.made.elim t.handles t.handles.insert,
      calls := t.calls.set i (e.frames ++ below),
      log := t.log ++ e.told }

/-- The threads can go on from `t` to `u`. -/
def Leads (t u : Threads) : Prop := Relation.ReflTransGen Step t u

/-- Threads that start with one owner can come to this. -/
def Reachable (t : Threads) : Prop :=
  ∃ n layout resource action, Leads (init n layout resource action) t

end Threads

end SharedOwnership
