import Mathlib.Logic.Relation
import SharedOwnership.Proofs.Ledger
import SharedOwnership.Proofs.Run

/-!
# Entries of the ledger

What a step of a machine does to its ledger is one of a few things. An entry moves units and handles
and leaves every block in its phase; a turn takes a block from one phase to the next: its release
action is started, ends or is unwound, or the block is freed.

## Main definitions

* `Ledger.Entry`, `Ledger.Entries` — what leaves every block in its phase.
* `Ledger.Turn` — what takes a block to its next phase.
-/

namespace SharedOwnership

/-- Whether an event tells of the teardown of a block. -/
def Event.isTeardown : Event → Bool
  | .releasing _ | .deallocating _ | .deallocated _ _ => true
  | _ => false

/-- The projection that a command applies. -/
def Command.projection? : Command → Option Projection
  | .project _ _ f | .projectClone _ _ f => f
  | _ => none

/-- Whether a command adopts data, or no resource. -/
def Command.adopts : Command → Bool
  | .create .. | .adopt .. | .replace .. => true
  | _ => false

/-- The owner of data that are adopted under a type. -/
def Handle.adopted (ty : Ty) (c : Option (Content.Of ty)) (heap : Heap) : Handle where
  kind := .strong
  ty := ty
  pointer := c.map fun c => Pointer.whole heap.resources.next c.1
  block := some heap.blocks.next

namespace Ledger

/-- What leaves every block in its phase, on behalf of commands with the property `p`. -/
inductive Entry (p : Command → Prop) (L : Ledger) : Ledger → Prop
  /-- An event is told. -/
  | note (e : Event) (he : e.isTeardown = false) : Entry p L { L with trace := e :: L.trace }
  /-- An empty handle is made. -/
  | addEmpty (h : Handle) (hl : h.block = none) (hq : h.pointer = none) :
    Entry p L { L with handles := h ::ₘ L.handles }
  /-- An empty handle is dropped. -/
  | dropEmpty (h : Handle) (hs : Multiset Handle) (hL : L.handles = h ::ₘ hs)
      (hl : h.block = none) :
    Entry p L { L with handles := hs }
  /-- A handle gives rise to another one, with a unit of its own. -/
  | share (h : Handle) (k : Kind) (l : Nat) (b : Block) (hh : h ∈ L.handles) (hl : h.block = some l)
      (hb : L.heap.blocks.get? l = some b) (hk : k = .strong → h.kind = .strong)
      (hc : b.counts.get k ≤ unitLimit) :
    Entry p L { L with
      heap := L.heap.setBlock l (b.addUnit k).1, handles := { h with kind := k } ::ₘ L.handles }
  /-- A unit is lost because the counter is above its limit. -/
  | overflow (k : Kind) (l : Nat) (b : Block) (hb : L.heap.blocks.get? l = some b)
      (hc : unitLimit < b.counts.get k) :
    Entry p L { L with heap := L.heap.setBlock l (b.addUnit k).1 }
  /-- An observer gives rise to an owner. -/
  | promote (h : Handle) (l : Nat) (b b' : Block) (hh : h ∈ L.handles) (hl : h.block = some l)
      (hb : L.heap.blocks.get? l = some b) (hp : b.promote = .ok (some b')) :
    Entry p L { L with
      heap := L.heap.setBlock l b', handles := { h with kind := .strong } ::ₘ L.handles }
  /-- A handle is dropped that does not hold the last unit of its kind. -/
  | letGo (h : Handle) (hs : Multiset Handle) (l : Nat) (b : Block) (hL : L.handles = h ::ₘ hs)
      (hl : h.block = some l) (hb : L.heap.blocks.get? l = some b) (hc : 1 < b.counts.get h.kind) :
    Entry p L { L with heap := L.heap.setBlock l (b.removeUnit h.kind), handles := hs }
  /-- Units are lent. -/
  | lend (k : Kind) (n l : Nat) (b b' : Block) (hb : L.heap.blocks.get? l = some b)
      (hlend : b.lend k n = some b') : Entry p L { L with heap := L.heap.setBlock l b' }
  /-- Units that were lent are taken back. -/
  | takeBack (k : Kind) (n l : Nat) (b b' : Block) (hb : L.heap.blocks.get? l = some b)
      (htake : b.takeBack k n = some b') : Entry p L { L with heap := L.heap.setBlock l b' }
  /-- A resource, or none, gets a block with an owner. -/
  | adopt (ty : Ty) (c : Option (Content.Of ty)) (layout : Layout) (action : ReleaseAction)
      (hp : Command.AllIn p action.script) (hc : ∃ c, p c ∧ c.adopts) :
    Entry p L { L with
      heap := ((L.heap.keep (c.map Subtype.val)).1.allocate layout
        (L.heap.keep (c.map Subtype.val)).2 action).1,
      handles := .adopted ty c L.heap ::ₘ L.handles,
      trace := .allocated L.heap.blocks.next layout :: L.trace }
  /-- A resource is stored that gets no block. -/
  | orphan (c : Content) :
    Entry p L { L with heap := (L.heap.store c).1, doomed := L.heap.resources.next ::ₘ L.doomed }
  /-- A handle is made to point at a part. -/
  | repoint (c : Command) (h : Handle) (hs : Multiset Handle) (f : Projection) (ty : Ty)
      (pointer : Option Pointer) (hL : L.handles = h ::ₘ hs) (hp : p c)
      (hf : c.projection? = some f) (hty : f.target h.kind h.ty = some ty)
      (hpointer : L.heap.pointed h f = .ok pointer) :
    Entry p L { L with handles := { h with ty, pointer } ::ₘ hs }
  /-- Handles enter or leave a resource. -/
  | relink (r : Nat) (f : Resource → Resource) (hf : ∀ x, (f x).content = x.content) :
    Entry p L { L with heap := L.heap.modifyResource r f }
  /-- A resource is dropped. -/
  | destroy (r : Nat) (rs : Multiset Nat) (hL : L.doomed = r ::ₘ rs) :
    Entry p L { L with
      heap := { L.heap with resources := L.heap.resources.erase r }, doomed := rs }

/-- Any number of entries. -/
def Entries (p : Command → Prop) (L L' : Ledger) : Prop := Relation.ReflTransGen (Entry p) L L'

namespace Entries

variable {p : Command → Prop} {L L' L'' : Ledger}

theorem refl : Entries p L L := Relation.ReflTransGen.refl

theorem single (h : Entry p L L') : Entries p L L' := Relation.ReflTransGen.single h

theorem trans (h : Entries p L L') (h' : Entries p L' L'') : Entries p L L'' :=
  Relation.ReflTransGen.trans h h'

theorem congr (h : Entries p L L') (h' : L' = L'') : Entries p L L'' := h' ▸ h

end Entries

/-- What takes a block to its next phase. -/
inductive Turn (L : Ledger) : Ledger → Prop
  /-- The last owner goes, and the release action is started. -/
  | release (h : Handle) (hs : Multiset Handle) (l : Nat) (b : Block) (hL : L.handles = h ::ₘ hs)
      (hk : h.kind = .strong) (hl : h.block = some l) (hb : L.heap.blocks.get? l = some b)
      (hc : b.counts.strong = 1) :
    Turn L { L with
      heap := L.heap.setBlock l { b.removeUnit .strong with action := none },
      handles := hs,
      finishing := l ::ₘ L.finishing,
      doomed := b.resource.toList + L.doomed,
      trace := .releasing l :: L.trace }
  /-- The release action ends, and the block is still observed. -/
  | finish (l : Nat) (ls : Multiset Nat) (b : Block) (hL : L.finishing = l ::ₘ ls)
      (hb : L.heap.blocks.get? l = some b) (hc : 1 < b.counts.weak) :
    Turn L { L with heap := L.heap.setBlock l (b.removeUnit .weak), finishing := ls }
  /-- The release action is unwound. -/
  | abandon (l : Nat) (ls : Multiset Nat) (b : Block) (hL : L.finishing = l ::ₘ ls)
      (hb : L.heap.blocks.get? l = some b) :
    Turn L { L with heap := L.heap.setBlock l { b with unwound := true }, finishing := ls }
  /-- The last observer goes, and the block is freed. -/
  | free (h : Handle) (hs : Multiset Handle) (l : Nat) (b : Block) (hL : L.handles = h ::ₘ hs)
      (hk : h.kind = .weak) (hl : h.block = some l) (hb : L.heap.blocks.get? l = some b)
      (hc : b.counts.weak = 1) :
    Turn L { L with
      heap := { L.heap with blocks := L.heap.blocks.erase l },
      handles := hs,
      trace := .deallocated l b.layout :: .deallocating l :: L.trace }
  /-- The release action ends, and the block is freed. -/
  | finishFree (l : Nat) (ls : Multiset Nat) (b : Block) (hL : L.finishing = l ::ₘ ls)
      (hb : L.heap.blocks.get? l = some b) (hc : b.counts.weak = 1) :
    Turn L { L with
      heap := { L.heap with blocks := L.heap.blocks.erase l },
      finishing := ls,
      trace := .deallocated l b.layout :: .deallocating l :: L.trace }

end Ledger

end SharedOwnership
