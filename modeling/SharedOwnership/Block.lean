import SharedOwnership.Command

/-!
# Control blocks

A control block counts the units of one resource and keeps what is needed to tear it down. All
owners together hold one further weak unit, which is given back after the release action, so a block
outlives its resource.

Some units are held by no handle. Units that were lent can be taken back; units that an overflow
lost stay in the counter for good, and so does the weak unit of the owners if the release action
unwinds.

Counters have no upper bound here. A counter of 64 bits would start again from zero after 2^64 - 1,
which is left aside: it takes some 2^63 panics of `Block.addUnit`, all of them caught.

## Main definitions

* `Counts` — a strong and a weak number.
* `ReleaseAction` — what is done with a resource in the end.
* `Block` — a control block.
* `unitLimit` — the greatest count that a further unit may be added to.
-/

namespace SharedOwnership

/-- A strong and a weak number. -/
structure Counts where
  strong : Nat := 0
  weak : Nat := 0
  deriving DecidableEq, Repr

namespace Counts

/-- The number of one kind. -/
def get (c : Counts) : Kind → Nat
  | .strong => c.strong
  | .weak => c.weak

/-- Change the number of one kind. -/
def modify (c : Counts) (k : Kind) (f : Nat → Nat) : Counts :=
  match k with
  | .strong => { c with strong := f c.strong }
  | .weak => { c with weak := f c.weak }

@[simp] theorem get_modify_self (c : Counts) (k : Kind) (f : Nat → Nat) :
    (c.modify k f).get k = f (c.get k) := by cases k <;> rfl

theorem get_modify_of_ne (c : Counts) {k j : Kind} (f : Nat → Nat) (h : j ≠ k) :
    (c.modify k f).get j = c.get j := by cases k <;> cases j <;> first | rfl | contradiction

theorem get_modify (c : Counts) (k j : Kind) (f : Nat → Nat) :
    (c.modify k f).get j = if j = k then f (c.get j) else c.get j := by
  cases k <;> cases j <;> rfl

/-- A number that stays positive, or zero, leaves both so. -/
theorem pos_modify {c : Counts} {k : Kind} {f : Nat → Nat} (h : 0 < f (c.get k) ↔ 0 < c.get k)
    (j : Kind) : 0 < (c.modify k f).get j ↔ 0 < c.get j := by
  rw [get_modify]
  split
  · next hj => exact hj ▸ h
  · exact Iff.rfl

@[simp] theorem strong_modify_weak (c : Counts) (f : Nat → Nat) :
    (c.modify .weak f).strong = c.strong := rfl

@[simp] theorem strong_modify_strong (c : Counts) (f : Nat → Nat) :
    (c.modify .strong f).strong = f c.strong := rfl

end Counts

/-- What is done with a resource once its last owner is gone.

There are two limits to what an action does. It catches the panic of a command of its script, at the
end of that command, and goes on with the next one. And it drops its resource before it panics
itself. So a panic that leaves an action comes after the script, either from the drop of the
resource or from the action itself; and no action keeps its resource. -/
inductive ReleaseAction
  /-- Drop it. -/
  | discard
  /-- Carry out a script, then drop the resource, then panic if `panics` says so. The action has a
  number, and it sees its resource at type `ty`. -/
  | scripted (number : Nat) (ty : Ty) (script : List Command) (panics : Bool)

/-- A control block. -/
structure Block where
  counts : Counts := ⟨1, 1⟩
  layout : Layout
  /-- The resource it was made for; none for a null pointer. -/
  resource : Option Nat
  /-- The release action, until it is started. -/
  action : Option ReleaseAction
  /-- Units that no handle holds and that may be taken back. -/
  lent : Counts := {}
  /-- Units that no handle holds and that are never given back, because an overflow lost them. -/
  lost : Counts := {}
  /-- Whether the release action unwound; the weak unit of the owners is never given back then. -/
  unwound : Bool := false

/-- The greatest count that a further unit may be added to: 2^63 - 1. -/
def unitLimit : Nat := UInt64.size / 2 - 1

/-- The panic of a counter above its limit. -/
def Kind.overflow : Kind → Panic
  | .strong => .strongOverflow
  | .weak => .weakOverflow

namespace Block

/-- Add a unit. A counter above its limit is raised all the same, and the unit is lost. No counter
starts again from zero. -/
def addUnit (b : Block) (k : Kind) : Block × Except Panic Unit :=
  let raised := { b with counts := b.counts.modify k (· + 1) }
  if b.counts.get k ≤ unitLimit then (raised, .ok ())
  else ({ raised with lost := b.lost.modify k (· + 1) }, .error k.overflow)

/-- Give a unit back. -/
def removeUnit (b : Block) (k : Kind) : Block := { b with counts := b.counts.modify k (· - 1) }

/-- Add a strong unit unless there is none: the block with the unit, or nothing. A counter above its
limit is left as it is. -/
def promote (b : Block) : Except Panic (Option Block) :=
  if b.counts.strong = 0 then .ok none
  else if b.counts.strong ≤ unitLimit then
    .ok (some { b with counts := b.counts.modify .strong (· + 1) })
  else .error .strongOverflow

/-- Add units that no handle holds; the limits keep the counter below 2^64. -/
def lend (b : Block) (k : Kind) (n : Nat) : Option Block :=
  let count := b.counts.get k
  if count = 0 ∨ unitLimit + 1 < n ∨ unitLimit + 1 + UInt32.size < count + n then none
  else some { b with counts := b.counts.modify k (· + n), lent := b.lent.modify k (· + n) }

/-- Take back units that were lent, but never the last unit of a counter. -/
def takeBack (b : Block) (k : Kind) (n : Nat) : Option Block :=
  if b.lent.get k < n ∨ b.counts.get k ≤ n then none
  else some { b with counts := b.counts.modify k (· - n), lent := b.lent.modify k (· - n) }

variable {b b' : Block} {k : Kind} {n : Nat}

@[simp] theorem counts_addUnit (b : Block) (k : Kind) :
    (b.addUnit k).1.counts = b.counts.modify k (· + 1) := by
  rw [addUnit]
  split <;> rfl

@[simp] theorem resource_addUnit (b : Block) (k : Kind) :
    (b.addUnit k).1.resource = b.resource := by
  rw [addUnit]
  split <;> rfl

@[simp] theorem action_addUnit (b : Block) (k : Kind) : (b.addUnit k).1.action = b.action := by
  rw [addUnit]
  split <;> rfl

@[simp] theorem unwound_addUnit (b : Block) (k : Kind) : (b.addUnit k).1.unwound = b.unwound := by
  rw [addUnit]
  split <;> rfl

@[simp] theorem lent_addUnit (b : Block) (k : Kind) : (b.addUnit k).1.lent = b.lent := by
  rw [addUnit]
  split <;> rfl

/-- Below the limit no unit is lost. -/
theorem lost_addUnit_of_le (h : b.counts.get k ≤ unitLimit) : (b.addUnit k).1.lost = b.lost := by
  rw [addUnit, if_pos h]

theorem lost_addUnit_of_lt (h : unitLimit < b.counts.get k) :
    (b.addUnit k).1.lost = b.lost.modify k (· + 1) := by
  rw [addUnit, if_neg (Nat.not_le.2 h)]

theorem addUnit_of_le (h : b.counts.get k ≤ unitLimit) : (b.addUnit k).2 = .ok () := by
  rw [addUnit, if_pos h]

theorem addUnit_of_lt (h : unitLimit < b.counts.get k) :
    (b.addUnit k).2 = .error k.overflow := by
  rw [addUnit, if_neg (Nat.not_le.2 h)]

theorem promote_eq_some : b.promote = .ok (some b') ↔
    0 < b.counts.strong ∧ b.counts.strong ≤ unitLimit ∧
      b' = { b with counts := b.counts.modify .strong (· + 1) } := by
  simp only [promote]
  split
  · next h => simp [h]
  · next h =>
    split
    · next hle => simp [Nat.pos_of_ne_zero h, hle, eq_comm]
    · next hlt => simp [hlt]

theorem promote_eq_none : b.promote = .ok none ↔ b.counts.strong = 0 := by
  rw [promote]
  split
  · next h => simp [h]
  · next h => split <;> simp [h]

theorem lend_eq_some (h : b.lend k n = some b') : 0 < b.counts.get k ∧
    b' = { b with counts := b.counts.modify k (· + n), lent := b.lent.modify k (· + n) } := by
  simp only [lend] at h
  split at h
  · cases h
  · next hcount =>
    cases h
    exact ⟨by omega, rfl⟩

theorem takeBack_eq_some (h : b.takeBack k n = some b') :
    n ≤ b.lent.get k ∧ n < b.counts.get k ∧
      b' = { b with counts := b.counts.modify k (· - n), lent := b.lent.modify k (· - n) } := by
  simp only [takeBack] at h
  split at h
  · cases h
  · next hcount =>
    cases h
    exact ⟨by omega, by omega, rfl⟩

end Block

end SharedOwnership
