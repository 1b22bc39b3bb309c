import Mathlib.Data.Multiset.Count
import Mathlib.Data.Multiset.Filter
import Mathlib.Data.Multiset.ZeroCons
import SharedOwnership.Machine.Step
import SharedOwnership.Proofs.Parts

/-!
# The ledger of a run

Handles move between slots, resources and the stack while their units stay what they are. The ledger
forgets where a handle is: it keeps the heap, all handles that were not dropped, the blocks whose
release action is running, the resources that are going to be dropped, and the trace. What ties the
counters to the handles, and the handles to the heap, is a property of the ledger.

## Main definitions

* `Ledger`, `State.ledger`, `Machine.ledger` — what there is to account for.
* `Machine.handles` — all handles that were not dropped.
* `Ledger.Accounts` — whether the counters of a block are accounted for.
* `Heap.Supports` — whether a handle points where it may.
* `Ledger.Sound` — the invariant of every run.
-/

namespace SharedOwnership

/-- The handles of kind `k` among `hs` that hold a unit of the block labelled `l`. -/
def holders (k : Kind) (l : Nat) (hs : Multiset Handle) : Nat :=
  hs.countP fun h => h.kind = k ∧ h.block = some l

section holders

variable (k : Kind) (l : Nat) (h : Handle) (hs hs' : Multiset Handle)

@[simp] theorem holders_cons :
    holders k l (h ::ₘ hs) = holders k l hs + if h.kind = k ∧ h.block = some l then 1 else 0 :=
  Multiset.countP_cons ..

variable {k l h hs}

theorem holders_pos (hh : h ∈ hs) (hk : h.kind = k) (hl : h.block = some l) :
    0 < holders k l hs := Multiset.countP_pos.2 ⟨h, hh, hk, hl⟩

end holders

/-! ### What a machine holds -/

/-- The handles in slots. -/
def Slots.handles (slots : Slots) : Multiset Handle := slots.entries.map Prod.snd

/-- The handles that resources hold. -/
def Heap.links (heap : Heap) : Multiset Handle := heap.resources.values.flatMap Resource.links

namespace Task

/-- The handles that a task works on. -/
def handles : Task → List Handle
  | .drop h => [h]
  | .spawn hs => hs
  | .settle puts _ => puts.map Prod.snd
  | _ => []

/-- The block whose release action ends with a task. -/
def finishing : Task → List Nat
  | .finish l => [l]
  | _ => []

/-- The resource that a task drops. -/
def doomed : Task → List Nat
  | .destroy r => [r]
  | _ => []

end Task

/-- What there is to account for. -/
@[ext] structure Ledger where
  heap : Heap
  /-- The handles that were not dropped, wherever they are. -/
  handles : Multiset Handle
  /-- The blocks whose release action is running. -/
  finishing : Multiset Nat
  /-- The resources that are going to be dropped. -/
  doomed : Multiset Nat
  /-- All events so far, the newest first. -/
  trace : List Event

/-- The ledger of a state with tasks that remain. -/
def State.ledger (s : State) (tasks : List Task) : Ledger where
  heap := s.heap
  handles := s.slots.handles + s.heap.links + (tasks.flatMap Task.handles : List Handle)
  finishing := (tasks.flatMap Task.finishing : List Nat)
  doomed := (tasks.flatMap Task.doomed : List Nat)
  trace := s.trace

namespace Machine

/-- The ledger of a machine. -/
def ledger (m : Machine) : Ledger := m.state.ledger m.stack

/-- All handles that were not dropped: those in slots, those that resources hold, and those that
commands and drops in progress work on. -/
def handles (m : Machine) : Multiset Handle :=
  m.state.slots.handles + m.state.heap.links + (m.stack.flatMap Task.handles : List Handle)

@[simp] theorem handles_ledger (m : Machine) : m.ledger.handles = m.handles := rfl

@[simp] theorem heap_ledger (m : Machine) : m.ledger.heap = m.state.heap := rfl

@[simp] theorem trace_ledger (m : Machine) : m.ledger.trace = m.state.trace := rfl

end Machine

/-! ### Counters and handles -/

/-- The units of a block that no handle holds: those that were lent, and those that an overflow
lost. -/
def Block.unheld (b : Block) (k : Kind) : Nat := b.lent.get k + b.lost.get k

/-- The weak units that the owners of a block hold together: one until the release action is
started, while it is running, and if it unwound. -/
def Ledger.common (L : Ledger) (l : Nat) (b : Block) : Nat :=
  b.action.isSome.toNat + L.finishing.count l + b.unwound.toNat

/-- The counters of a block are accounted for. -/
structure Ledger.Accounts (L : Ledger) (l : Nat) (b : Block) : Prop where
  counted : ∀ k, b.counts.get k =
    holders k l L.handles + b.unheld k + if k = .weak then L.common l b else 0
  /-- The release action is started when the last strong unit goes. -/
  live : b.action.isSome ↔ 0 < b.counts.strong
  /-- The block is freed when the last weak unit goes. -/
  weak_pos : 0 < b.counts.weak
  common_le : L.common l b ≤ 1

/-! ### Handles and the heap -/

/-- Where a pointer of type `ty` may point that goes with the block `b`: to a part of the resource
of the block, or to the constant. -/
def Heap.Points (heap : Heap) (b : Block) (ty : Ty) (q : Pointer) : Prop :=
  q.region = .constant ∨ ∃ r, b.resource = some r ∧ q.region = .resource r ∧
    ∀ x, heap.resources.get? r = some x → x.content.HasPart ty q.part

/-- A handle without a block has no pointer. The block of a handle is allocated, and the handle has
a pointer just if the block has a resource. -/
structure Heap.Supports (heap : Heap) (h : Handle) : Prop where
  pointer_eq_none : h.block = none → h.pointer = none
  allocated : ∀ l, h.block = some l → ∃ b, heap.blocks.get? l = some b ∧
    (h.pointer = none ↔ b.resource = none) ∧ ∀ q, h.pointer = some q → heap.Points b h.ty q

/-- The invariant of every run. -/
structure Ledger.Sound (L : Ledger) : Prop where
  accounts : ∀ l b, L.heap.blocks.get? l = some b → L.Accounts l b
  supports : ∀ h ∈ L.handles, L.heap.Supports h
  finishing : ∀ l ∈ L.finishing, ∃ b, L.heap.blocks.get? l = some b
  /-- The resource of a block stays until the release action is started. -/
  stays : ∀ l b r, L.heap.blocks.get? l = some b → b.action.isSome → b.resource = some r →
    (∃ x, L.heap.resources.get? r = some x) ∧ r ∉ L.doomed
  /-- The resource of a block was stored before. -/
  stored : ∀ l b r, L.heap.blocks.get? l = some b → b.resource = some r → r < L.heap.resources.next
  /-- No two blocks have one resource. -/
  unshared : ∀ l l' b b' r, L.heap.blocks.get? l = some b → L.heap.blocks.get? l' = some b' →
    b.resource = some r → b'.resource = some r → l = l'
  doomed : ∀ r ∈ L.doomed, ∃ x, L.heap.resources.get? r = some x
  nodup_doomed : L.doomed.Nodup

theorem Ledger.Accounts.strong {L : Ledger} {l : Nat} {b : Block} (h : L.Accounts l b) :
    b.counts.strong = holders .strong l L.handles + b.unheld .strong := h.counted .strong

theorem Ledger.Accounts.weak {L : Ledger} {l : Nat} {b : Block} (h : L.Accounts l b) :
    b.counts.weak = holders .weak l L.handles + b.unheld .weak + L.common l b := h.counted .weak

namespace Ledger.Sound

variable {L : Ledger} {l : Nat} {b : Block} {h : Handle}

/-- A handle holds a unit of its block. -/
theorem one_le_count (hL : L.Sound) (hh : h ∈ L.handles) (hl : h.block = some l)
    (hb : L.heap.blocks.get? l = some b) : 1 ≤ b.counts.get h.kind := by
  have hcounted := (hL.accounts l b hb).counted h.kind
  have hpos := holders_pos hh rfl hl
  omega

/-- The block of a handle is allocated. -/
theorem exists_block (hL : L.Sound) (hh : h ∈ L.handles) (hl : h.block = some l) :
    ∃ b, L.heap.blocks.get? l = some b := by
  obtain ⟨b, hb, -⟩ := (hL.supports h hh).allocated l hl
  exact ⟨b, hb⟩

/-- The release action of a block that has an owner was not started. -/
theorem isSome_action (hL : L.Sound) (hh : h ∈ L.handles) (hk : h.kind = .strong)
    (hl : h.block = some l) (hb : L.heap.blocks.get? l = some b) : b.action.isSome := by
  have hone := hL.one_le_count hh hl hb
  rw [hk] at hone
  exact (hL.accounts l b hb).live.2 hone

/-- The resource that an owner points into is there. -/
theorem exists_resource (hL : L.Sound) (hh : h ∈ L.handles) (hk : h.kind = .strong) {q : Pointer}
    {r : Nat} (hq : h.pointer = some q) (hr : q.region = .resource r) :
    ∃ x, L.heap.resources.get? r = some x ∧ x.content.HasPart h.ty q.part := by
  have hs := hL.supports h hh
  cases hl : h.block with
  | none =>
    rw [hs.pointer_eq_none hl] at hq
    cases hq
  | some l =>
    obtain ⟨b, hb, -, hpoints⟩ := hs.allocated l hl
    rcases hpoints q hq with hconstant | ⟨r', hr', hregion, hpart⟩
    · rw [hr] at hconstant
      cases hconstant
    · obtain rfl : r = r' := by simpa [hr] using hregion
      obtain ⟨⟨x, hx⟩, -⟩ := hL.stays l b r hb (hL.isSome_action hh hk hl hb) hr'
      exact ⟨x, hx, hpart x hx⟩

end Ledger.Sound

end SharedOwnership
