import SharedOwnership.Proofs.Ledger.Step

/-!
# The counters are exact

In every machine that some run passes through, inside release actions too, the strong counter of a
block is the number of its owners, and the weak counter is the number of its observers and one more
as long as the owners hold a weak unit together. Units that no handle holds come on top: those that
were lent, and those that an overflow lost. To forget a handle is to lend a unit and then to drop
it.

## Main definitions

* `Machine.Releasing` — whether the release action of a block is running.
* `Machine.Exact` — whether the counters of a block say what they should.

## Main results

* `Machine.exact_of_reachable` — they do.
-/

namespace SharedOwnership

namespace Machine

variable {p : Command → Prop} {m : Machine} {l : Nat} {b : Block}

/-- Whether the release action of a block is running: the task that ends it waits on the stack. -/
def Releasing (m : Machine) (l : Nat) : Prop := l ∈ m.stack.flatMap Task.finishing

instance (m : Machine) (l : Nat) : Decidable (m.Releasing l) :=
  inferInstanceAs (Decidable (l ∈ _))

theorem releasing_iff : m.Releasing l ↔ Task.finish l ∈ m.stack := by
  simp only [Releasing, List.mem_flatMap]
  constructor
  · rintro ⟨t, ht, hl⟩
    cases t <;> simp only [Task.finishing, List.mem_singleton, List.not_mem_nil] at hl
    exact hl ▸ ht
  · exact fun ht => ⟨_, ht, by simp [Task.finishing]⟩

/-- The counters of a block count its handles, and the units that no handle holds. -/
structure Exact (m : Machine) (l : Nat) (b : Block) : Prop where
  strong : b.counts.strong =
    holders .strong l m.handles + (b.lent.strong + b.lost.strong)
  /-- The owners hold a weak unit together while there are any, while the release action is running,
  and when it was unwound. -/
  weak : b.counts.weak =
    holders .weak l m.handles + (b.lent.weak + b.lost.weak) +
      if 0 < b.counts.strong ∨ m.Releasing l ∨ b.unwound then 1 else 0
  /-- Every handle of the block tells how many owners there are. -/
  useCount : ∀ h : Handle, h.block = some l →
    m.state.heap.useCount h = holders .strong l m.handles + (b.lent.strong + b.lost.strong)

end Machine

/-- The weak units that the owners of a block hold together, in terms of the phase of the block. -/
theorem Ledger.Sound.common_eq {L : Ledger} {l : Nat} {b : Block} (hL : L.Sound)
    (hb : L.heap.blocks.get? l = some b) : L.common l b =
      if 0 < b.counts.strong ∨ l ∈ L.finishing ∨ b.unwound then 1 else 0 := by
  have hacc := hL.accounts l b hb
  have hle := hacc.common_le
  simp only [common] at hle ⊢
  split
  · next hone =>
    rcases hone with hstrong | hmem | hunwound
    · rw [hacc.live.2 hstrong, Bool.toNat_true] at hle ⊢
      omega
    · have hcount : 0 < L.finishing.count l := Multiset.count_pos.2 hmem
      omega
    · rw [hunwound, Bool.toNat_true] at hle ⊢
      omega
  · next hnone =>
    simp only [not_or, Bool.not_eq_true] at hnone
    have haction : b.action.isSome = false := Bool.eq_false_iff.2 (mt hacc.live.1 hnone.1)
    rw [haction, Multiset.count_eq_zero.2 hnone.2.1, hnone.2.2]
    rfl

namespace Machine

/-- The counters of every block are exact in every machine that some run passes through. -/
theorem exact_of_reachable {m : Machine} {l : Nat} {b : Block} (hm : m.Reachable)
    (hb : m.state.heap.blocks.get? l = some b) : m.Exact l b := by
  have hL : m.ledger.Sound := ReachableBy.sound hm
  have hacc := hL.accounts l b hb
  refine ⟨hacc.strong, ?_, fun h hl => ?_⟩
  · have hcommon := hL.common_eq hb
    rw [hacc.weak, hcommon]
    rfl
  · rw [Heap.useCount, hl]
    exact (Heap.count_of_get? .strong hb).trans hacc.strong

/-- Amid a release action two observers and the owners together hold weak units. -/
theorem exact_amidRelease : amidRelease.Reachable ∧ ∃ b,
    amidRelease.state.heap.blocks.get? 1 = some b ∧ b.counts = ⟨0, 3⟩ ∧ amidRelease.Releasing 1 ∧
      amidRelease.Exact 1 b :=
  ⟨reachable_amidRelease, _, rfl, rfl, by decide, exact_of_reachable reachable_amidRelease rfl⟩

end Machine

end SharedOwnership
