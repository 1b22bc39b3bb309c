import SharedOwnership.Heap

/-!
# Sharing

How a handle gives rise to further handles. Every further handle brings a unit of its own, except a
projected one, which takes over the unit of the handle it is made from.

## Main definitions

* `Heap.clone`, `Heap.downgrade`, `Heap.lock` — a further handle.
* `Heap.pointed` — the pointer of a projected handle.
* `Heap.churn` — many further handles, each dropped at once.
-/

namespace SharedOwnership

namespace Heap

/-- A further handle of kind `k` with the pointer and the block of `h`. -/
def share (heap : Heap) (h : Handle) (k : Kind) : Heap × Except Panic Handle :=
  match h.block with
  | none => (heap, .ok { h with kind := k })
  | some l =>
    let (heap, added) := heap.addUnit k l
    (heap, added.map fun () => { h with kind := k })

/-- A further handle of the same kind. -/
def clone (heap : Heap) (h : Handle) : Heap × Except Panic Handle := heap.share h h.kind

/-- An observer of what `h` owns. -/
def downgrade (heap : Heap) (h : Handle) : Heap × Except Panic Handle := heap.share h .weak

/-- An owner of what `h` observes, if it has an owner still, and an empty handle otherwise. -/
def lock (heap : Heap) (h : Handle) : Heap × Except Panic Handle :=
  let failed := (heap, .ok (.empty .strong h.ty))
  match h.block with
  | none => failed
  | some l =>
    match heap.blocks.get? l with
    | none => failed
    | some b =>
      match b.promote with
      | .ok none => failed
      | .ok (some promoted) =>
        (heap.setBlock l promoted, .ok { h with kind := .strong })
      | .error p => (heap, .error p)

/-- The number of owners of the resource of a handle, zero for an empty handle. -/
def useCount (heap : Heap) (h : Handle) : Nat :=
  match h.block with
  | some l => heap.count .strong l
  | none => 0

/-- The pointer of a handle after a projection; without a pointer there is nothing to project. -/
def pointed (heap : Heap) (h : Handle) (f : Projection) : Except Panic (Option Pointer) :=
  match h.pointer with
  | none => .ok none
  | some q => (f.apply (heap.textBehind q) q).map some

/-- Give back the unit of a handle of a block whose counter stays positive. -/
def forget (heap : Heap) (h : Handle) : Heap :=
  match h.block with
  | some l => heap.removeUnit h.kind l
  | none => heap

/-- One round of an owner: clone it, observe the clone, drop the clone, and see whether the observer
still has an owner. -/
def churnOwner (heap : Heap) (h : Handle) : Heap × Except Panic Nat :=
  match heap.clone h with
  | (heap, .error p) => (heap, .error p)
  | (heap, .ok copy) =>
    match heap.downgrade copy with
    | (heap, .error p) => (heap.forget copy, .error p)
    | (heap, .ok observer) =>
      let heap := heap.forget copy
      let n := if heap.useCount observer = 0 then 0 else 1
      (heap.forget observer, .ok n)

/-- One round of an observer: clone it, lock the clone, drop the clone, and see whether the lock
gave an owner. -/
def churnObserver (heap : Heap) (h : Handle) : Heap × Except Panic Nat :=
  match heap.clone h with
  | (heap, .error p) => (heap, .error p)
  | (heap, .ok copy) =>
    match heap.lock copy with
    | (heap, .error p) => (heap.forget copy, .error p)
    | (heap, .ok owner) =>
      let heap := heap.forget copy
      let n := if heap.useCount owner = 0 then 0 else 1
      (heap.forget owner, .ok n)

/-- One round of a handle. -/
def churnRound (heap : Heap) (h : Handle) : Heap × Except Panic Nat :=
  match h.kind with
  | .strong => heap.churnOwner h
  | .weak => heap.churnObserver h

/-- The rounds of one thread, until one of them panics; the total so far is `total`. -/
def churnThread (heap : Heap) (h : Handle) : Nat → Nat → Heap × Except Panic Nat
  | 0, total => (heap, .ok total)
  | rounds + 1, total =>
    match heap.churnRound h with
    | (heap, .ok n) => heap.churnThread h rounds (total + n)
    | (heap, .error p) => (heap, .error p)

/-- The rounds of several threads, one thread after the other: each round leaves the counters as it
found them, so the order makes no difference. A panic ends its own thread only. -/
def churn (heap : Heap) (h : Handle) (rounds : Nat) : Nat → Heap × Except Panic Nat
  | 0 => (heap, .ok 0)
  | threads + 1 =>
    match heap.churnThread h rounds 0 with
    | (heap, .ok n) =>
      let (heap, rest) := heap.churn h rounds threads
      (heap, rest.map (n + ·))
    | (heap, .error p) => ((heap.churn h rounds threads).1, .error p)

/-! ### Handles of a block -/

section block

variable {heap : Heap} {h : Handle} {l : Nat} {b : Block}

theorem share_of_block (hl : h.block = some l) (hb : heap.blocks.get? l = some b) (k : Kind) :
    heap.share h k =
      (heap.setBlock l (b.addUnit k).1, (b.addUnit k).2.map fun () => { h with kind := k }) := by
  simp only [share, hl, addUnit, hb, modifyBlock_eq_setBlock _ hb]

end block

/-! ### The resources stay -/

@[simp] theorem resources_addUnit (heap : Heap) (k : Kind) (l : Nat) :
    (heap.addUnit k l).1.resources = heap.resources := by
  simp only [addUnit]
  split <;> rfl

@[simp] theorem resources_share (heap : Heap) (h : Handle) (k : Kind) :
    (heap.share h k).1.resources = heap.resources := by
  rw [share]
  split
  · rfl
  · exact resources_addUnit ..

@[simp] theorem resources_clone (heap : Heap) (h : Handle) :
    (heap.clone h).1.resources = heap.resources := resources_share ..

@[simp] theorem resources_downgrade (heap : Heap) (h : Handle) :
    (heap.downgrade h).1.resources = heap.resources := resources_share ..

@[simp] theorem resources_lock (heap : Heap) (h : Handle) :
    (heap.lock h).1.resources = heap.resources := by
  rw [lock]
  split
  · rfl
  · split
    · rfl
    · split <;> rfl

@[simp] theorem resources_forget (heap : Heap) (h : Handle) :
    (heap.forget h).resources = heap.resources := by
  rw [forget]
  split <;> rfl

theorem resources_churnOwner (heap : Heap) (h : Handle) :
    (heap.churnOwner h).1.resources = heap.resources := by
  have hclone := resources_clone heap h
  rw [churnOwner]
  rcases hmade : heap.clone h with ⟨heap₁, e | copy⟩ <;> rw [hmade] at hclone
  · exact hclone
  · have hdown := resources_downgrade heap₁ copy
    simp only
    rcases hmade' : heap₁.downgrade copy with ⟨heap₂, e | observer⟩ <;> rw [hmade'] at hdown <;>
      simp_all

theorem resources_churnObserver (heap : Heap) (h : Handle) :
    (heap.churnObserver h).1.resources = heap.resources := by
  have hclone := resources_clone heap h
  rw [churnObserver]
  rcases hmade : heap.clone h with ⟨heap₁, e | copy⟩ <;> rw [hmade] at hclone
  · exact hclone
  · have hlock := resources_lock heap₁ copy
    simp only
    rcases hmade' : heap₁.lock copy with ⟨heap₂, e | owner⟩ <;> rw [hmade'] at hlock <;>
      simp_all

theorem resources_churnThread (heap : Heap) (h : Handle) (rounds total : Nat) :
    (heap.churnThread h rounds total).1.resources = heap.resources := by
  induction rounds generalizing heap total with
  | zero => rfl
  | succ rounds ih =>
    have hround : (heap.churnRound h).1.resources = heap.resources := by
      rw [churnRound]
      split
      · exact resources_churnOwner heap h
      · exact resources_churnObserver heap h
    rw [churnThread]
    rcases hmade : heap.churnRound h with ⟨heap₁, e | n⟩ <;> rw [hmade] at hround
    · exact hround
    · exact (ih heap₁ (total + n)).trans hround

/-- However many handles are made and dropped, no resource goes. -/
theorem resources_churn (heap : Heap) (h : Handle) (rounds threads : Nat) :
    (heap.churn h rounds threads).1.resources = heap.resources := by
  induction threads generalizing heap with
  | zero => rfl
  | succ threads ih =>
    have hthread := resources_churnThread heap h rounds 0
    rw [churn]
    rcases hmade : heap.churnThread h rounds 0 with ⟨heap₁, e | n⟩ <;> rw [hmade] at hthread <;>
      exact (ih heap₁).trans hthread

end Heap

end SharedOwnership
