import SharedOwnership.Block
import SharedOwnership.Table

/-!
# The heap

The heap holds the control blocks that are allocated and the resources that are not dropped yet,
each under a label that is used once.

## Main definitions

* `Heap` — control blocks and resources.
* `Heap.read`, `Heap.address` — what a handle points at.
* `Heap.count` — a counter of a control block.
* `Heap.allocate` — a new control block.
-/

namespace SharedOwnership

/-- The control blocks that are allocated and the resources that are not dropped yet. -/
structure Heap where
  blocks : Table Block := .empty
  resources : Table Resource := .empty

namespace Heap

/-- The value that a handle points at, if it has a pointer. -/
def read (heap : Heap) (h : Handle) : Option Value :=
  h.pointer.bind fun q =>
    match q.region with
    | .constant => some ((Value.int constantValue).under h.ty)
    | .resource l => (heap.resources.get? l).bind fun r => r.read h.ty q.part

/-- The address that a pointer has. -/
def address (heap : Heap) (q : Pointer) : Address :=
  match q.region with
  | .constant => ⟨.constant, q.part.offset⟩
  | .resource l =>
    match heap.resources.get? l with
    | some r => ⟨r.content.base l, q.part.offset⟩
    | none => ⟨.resource l, q.part.offset⟩

/-- The whole text that a pointer points into, empty if it points into none. -/
def textBehind (heap : Heap) (q : Pointer) : String :=
  match q.region with
  | .constant => ""
  | .resource l =>
    match heap.resources.get? l with
    | some ⟨.text s, _⟩ => s
    | _ => ""

/-- A counter of the control block labelled `l`, zero if it is not allocated. -/
def count (heap : Heap) (k : Kind) (l : Nat) : Nat :=
  match heap.blocks.get? l with
  | some b => b.counts.get k
  | none => 0

/-- Change the control block labelled `l`. -/
def modifyBlock (heap : Heap) (l : Nat) (f : Block → Block) : Heap :=
  { heap with blocks := heap.blocks.modify l f }

/-- Put a control block in place of the one labelled `l`. -/
def setBlock (heap : Heap) (l : Nat) (b : Block) : Heap := heap.modifyBlock l fun _ => b

/-- Change the resource labelled `l`. -/
def modifyResource (heap : Heap) (l : Nat) (f : Resource → Resource) : Heap :=
  { heap with resources := heap.resources.modify l f }

/-- Store data as a resource: the heap and the new label. -/
def store (heap : Heap) (c : Content) : Heap × Nat :=
  ({ heap with resources := heap.resources.insert { content := c } }, heap.resources.next)

/-- Store data as a resource, if there are data: the heap and the new label. -/
def keep (heap : Heap) (c : Option Content) : Heap × Option Nat :=
  match c with
  | some c => let (heap, l) := heap.store c; (heap, some l)
  | none => (heap, none)

/-- Allocate a control block with one unit of each kind: the heap and the new label. -/
def allocate (heap : Heap) (layout : Layout) (resource : Option Nat) (action : ReleaseAction) :
    Heap × Nat :=
  ({ heap with blocks := heap.blocks.insert { layout, resource, action := some action } },
    heap.blocks.next)

/-- Add a unit to the control block labelled `l`. -/
def addUnit (heap : Heap) (k : Kind) (l : Nat) : Heap × Except Panic Unit :=
  match heap.blocks.get? l with
  | some b => (heap.modifyBlock l fun b => (b.addUnit k).1, (b.addUnit k).2)
  | none => (heap, .ok ())

/-- Give a unit back to the control block labelled `l`. What its last unit of a kind brings about is
not done here. -/
def removeUnit (heap : Heap) (k : Kind) (l : Nat) : Heap :=
  heap.modifyBlock l (·.removeUnit k)

/-- The control blocks that are allocated, each with its two counters. -/
def counters (heap : Heap) : List (Nat × Counts) :=
  heap.blocks.toList.map fun (l, b) => (l, b.counts)

@[simp] theorem blocks_keep (heap : Heap) (c : Option Content) :
    (heap.keep c).1.blocks = heap.blocks := by cases c <;> rfl

@[simp] theorem label_keep (heap : Heap) (c : Option Content) :
    (heap.keep c).2 = c.map fun _ => heap.resources.next := by cases c <;> rfl

/-- The resources that were there are as they were. -/
theorem get?_resources_keep (heap : Heap) (c : Option Content) {r : Nat}
    (h : r < heap.resources.next) :
    (heap.keep c).1.resources.get? r = heap.resources.get? r := by
  cases c with
  | none => rfl
  | some c =>
    simp only [keep, store, Table.get?_insert]
    rw [if_neg (Nat.ne_of_lt h)]

theorem get?_resources_keep_next (heap : Heap) (c : Content) :
    (heap.keep (some c)).1.resources.get? heap.resources.next = some { content := c } := by
  simp [keep, store, Table.get?_insert]

theorem next_resources_le_keep (heap : Heap) (c : Option Content) :
    heap.resources.next ≤ (heap.keep c).1.resources.next := by
  cases c with
  | none => exact Nat.le_refl _
  | some c => simp [keep, store]

@[simp] theorem resources_allocate (heap : Heap) (layout : Layout) (resource : Option Nat)
    (action : ReleaseAction) :
    (heap.allocate layout resource action).1.resources = heap.resources := rfl

/-- The other control blocks are as they were. -/
theorem get?_allocate (heap : Heap) (layout : Layout) (resource : Option Nat)
    (action : ReleaseAction) (l : Nat) :
    (heap.allocate layout resource action).1.blocks.get? l =
      if l = heap.blocks.next then some { layout, resource, action := some action }
      else heap.blocks.get? l := Table.get?_insert ..

theorem modifyBlock_eq_setBlock {heap : Heap} {l : Nat} {b : Block} (f : Block → Block)
    (h : heap.blocks.get? l = some b) : heap.modifyBlock l f = heap.setBlock l (f b) := by
  have hblocks : heap.blocks.modify l f = heap.blocks.modify l fun _ => f b :=
    Table.modify_congr h rfl
  rw [setBlock, modifyBlock, modifyBlock, hblocks]

@[simp] theorem resources_setBlock (heap : Heap) (l : Nat) (b : Block) :
    (heap.setBlock l b).resources = heap.resources := rfl

@[simp] theorem next_blocks_setBlock (heap : Heap) (l : Nat) (b : Block) :
    (heap.setBlock l b).blocks.next = heap.blocks.next := Table.next_modify ..

/-- The other control blocks are as they were. -/
theorem get?_setBlock {heap : Heap} {l : Nat} {b : Block} (h : heap.blocks.get? l = some b)
    (b' : Block) (l' : Nat) :
    (heap.setBlock l b').blocks.get? l' = if l = l' then some b' else heap.blocks.get? l' := by
  rw [setBlock, modifyBlock, Table.get?_modify]
  split
  · next hl => rw [← hl, h, Option.map_some]
  · rfl

theorem setBlock_setBlock (heap : Heap) (l : Nat) (b c : Block) :
    (heap.setBlock l b).setBlock l c = heap.setBlock l c := by
  rw [setBlock, setBlock, setBlock, modifyBlock, modifyBlock, modifyBlock, Table.modify_modify]
  rfl

theorem setBlock_self {heap : Heap} {l : Nat} {b : Block}
    (hb : heap.blocks.get? l = some b) : heap.setBlock l b = heap := by
  rw [← show id b = b from rfl, ← modifyBlock_eq_setBlock id hb, modifyBlock]
  cases l with
  | zero => rfl
  | succ i => simp [Table.modify]

theorem get?_setBlock_self {heap : Heap} {l : Nat} {b : Block}
    (hb : heap.blocks.get? l = some b) (c : Block) :
    (heap.setBlock l c).blocks.get? l = some c := by
  rw [get?_setBlock hb, if_pos rfl]

end Heap

end SharedOwnership
