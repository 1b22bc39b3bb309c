import SharedOwnership.Proofs.Ledger.Step

/-!
# No handle dangles

A handle caches a pointer beside its block, and the two travel separately. Still the block of a
handle is allocated, and the handle has a pointer just if the block was made for a resource. What an
owner points at can be read: it is a part of the resource of its block, which is not dropped yet.
That takes projections that return a part of their argument; the constant that a projection may
return instead is no part of any resource.

## Main definitions

* `Command.ProjectsParts` — whether the projection of a command returns a part of its argument.
* `Machine.Valid` — what holds of a handle that does not dangle.

## Main results

* `Machine.valid_of_reachable` — no handle dangles.
-/

namespace SharedOwnership

/-- Whether the projection of a command, if it has one, returns a part of its argument. -/
def Command.ProjectsParts (c : Command) : Prop := ∀ f, c.projection? = some f → f.IsPart

/-! ### Handles stay off the constant -/

namespace Ledger

/-- No handle points at the constant. -/
def Inside (L : Ledger) : Prop :=
  ∀ h ∈ L.handles, ∀ q, h.pointer = some q → q.region ≠ .constant

variable {p : Command → Prop} {L L' : Ledger}

/-- A handle that points at a part of what it pointed at stays inside. -/
theorem Inside.repoint {h : Handle} {f : Projection} {pointer : Option Pointer} (hL : L.Inside)
    (hh : h ∈ L.handles) (hf : f.IsPart) (hpointer : L.heap.pointed h f = .ok pointer) :
    ∀ q, pointer = some q → q.region ≠ .constant := by
  rintro q' rfl
  rw [Heap.pointed] at hpointer
  split at hpointer
  · cases hpointer
  · next q hq =>
    cases happly : f.apply (L.heap.textBehind q) q with
    | error e => simp [happly, Except.map] at hpointer
    | ok q'' =>
      obtain rfl : q'' = q' := by simpa [happly, Except.map] using hpointer
      rw [hf _ _ _ happly]
      exact hL h hh q hq

theorem Entry.inside (hp : ∀ c, p c → c.ProjectsParts) (hL : L.Inside) (h : Entry p L L') :
    L'.Inside := by
  have hcons : ∀ h : Handle, (∀ q, h.pointer = some q → q.region ≠ .constant) →
      ∀ g ∈ h ::ₘ L.handles, ∀ q, g.pointer = some q → q.region ≠ .constant := by
    intro h hh g hg
    rcases Multiset.mem_cons.1 hg with rfl | hg
    · exact hh
    · exact hL g hg
  have htail : ∀ (h : Handle) (hs : Multiset Handle), L.handles = h ::ₘ hs →
      ∀ g ∈ hs, ∀ q, g.pointer = some q → q.region ≠ .constant :=
    fun h hs hL' g hg => hL g (hL' ▸ Multiset.mem_cons_of_mem hg)
  cases h with
  | note | overflow | lend | takeBack | orphan | relink | destroy => exact hL
  | addEmpty h hl hq => exact hcons h fun q hq' => by simp [hq] at hq'
  | dropEmpty h hs hL' => exact htail h hs hL'
  | share h k l b hh => exact hcons _ (hL h hh)
  | promote h l b b' hh => exact hcons _ (hL h hh)
  | letGo h hs l b hL' => exact htail h hs hL'
  | adopt ty c layout action =>
    refine hcons _ fun q hq => ?_
    obtain ⟨c, -, rfl⟩ := Option.map_eq_some_iff.1 hq
    simp [Pointer.whole]
  | repoint c h hs f ty pointer hL' hc hf hty hpointer =>
    intro g hg
    rcases Multiset.mem_cons.1 hg with rfl | hg
    · have hh : h ∈ L.handles := hL' ▸ Multiset.mem_cons_self ..
      exact hL.repoint hh (hp c hc f hf) hpointer
    · exact htail h hs hL' g hg

theorem Entries.inside (hp : ∀ c, p c → c.ProjectsParts) (hL : L.Inside) (h : Entries p L L') :
    L'.Inside := by
  induction h with
  | refl => exact hL
  | tail _ h ih => exact h.inside hp ih

theorem Turn.inside (hL : L.Inside) (h : Turn L L') : L'.Inside := by
  cases h with
  | release h hs l b hL' | free h hs l b hL' =>
    exact fun g hg => hL g (hL' ▸ Multiset.mem_cons_of_mem hg)
  | finish | abandon | finishFree => exact hL

theorem Step.inside (hp : ∀ c, p c → c.ProjectsParts) (hL : L.Inside) (h : Step p L L') :
    L'.Inside := by
  cases h with
  | entries h => exact h.inside hp hL
  | turn M h h' => exact h'.inside hp (h.inside hL)

end Ledger

namespace Machine

variable {p : Command → Prop} {m : Machine} {h : Handle}

/-- A handle does not dangle. -/
structure Valid (m : Machine) (h : Handle) : Prop where
  pointer_eq_none : h.block = none → h.pointer = none
  /-- The block is allocated, and the handle has a pointer just if the block has a resource. -/
  allocated : ∀ l, h.block = some l → ∃ b, m.state.heap.blocks.get? l = some b ∧
    (h.pointer = none ↔ b.resource = none)
  /-- The release action of what an owner owns was not started. -/
  owned : ∀ l b, h.kind = .strong → h.block = some l → m.state.heap.blocks.get? l = some b →
    1 ≤ b.counts.strong ∧ b.action.isSome
  /-- An owner points at a part of the resource of its block, which is there. -/
  inside : ∀ l b q, h.kind = .strong → h.block = some l → m.state.heap.blocks.get? l = some b →
    h.pointer = some q → ∃ r x, b.resource = some r ∧ q.region = .resource r ∧
      m.state.heap.resources.get? r = some x ∧ x.content.HasPart h.ty q.part
  /-- What an owner points at can be read. -/
  readable : h.kind = .strong → h.pointer.isSome → (m.state.heap.read h).isSome

/-- No handle dangles in any machine that some run passes through whose projections return parts of
their arguments. -/
theorem valid_of_reachable (hm : m.ReachableBy Command.ProjectsParts) (hh : h ∈ m.handles) :
    m.Valid h := by
  have hL : m.ledger.Sound := hm.sound
  have hinside : m.ledger.Inside :=
    hm.ledger_induction (fun g hg => absurd hg (Multiset.notMem_zero g))
      fun L L' _ hstep hL => hstep.inside (fun _ => id) hL
  have hs := hL.supports h hh
  have hpart : ∀ l b q, h.kind = .strong → h.block = some l →
      m.state.heap.blocks.get? l = some b → h.pointer = some q →
      ∃ r x, b.resource = some r ∧ q.region = .resource r ∧
        m.state.heap.resources.get? r = some x ∧ x.content.HasPart h.ty q.part := by
    intro l b q hk hl hb hq
    obtain ⟨b', hb', -, hpoints⟩ := hs.allocated l hl
    obtain rfl : b = b' := Option.some.inj (hb.symm.trans hb')
    rcases hpoints q hq with hconstant | ⟨r, hr, hregion, -⟩
    · exact absurd hconstant (hinside h hh q hq)
    · obtain ⟨x, hx, hpart⟩ := hL.exists_resource hh hk hq hregion
      exact ⟨r, x, hr, hregion, hx, hpart⟩
  refine ⟨hs.pointer_eq_none, fun l hl => ?_, fun l b hk hl hb => ⟨?_, ?_⟩, hpart,
    fun hk hq => ?_⟩
  · obtain ⟨b, hb, hnone, -⟩ := hs.allocated l hl
    exact ⟨b, hb, hnone⟩
  · have hone := hL.one_le_count hh hl hb
    rwa [hk] at hone
  · exact hL.isSome_action hh hk hl hb
  · obtain ⟨q, hq⟩ := Option.isSome_iff_exists.1 hq
    have hl : h.block.isSome := by
      by_contra hnone
      simp [hs.pointer_eq_none (by simpa using hnone)] at hq
    obtain ⟨l, hl⟩ := Option.isSome_iff_exists.1 hl
    obtain ⟨b, hb⟩ := hL.exists_block hh hl
    obtain ⟨r, x, -, hregion, hx, hpart⟩ := hpart l b q hk hl hb hq
    simp only [Heap.read, hq, Option.bind_some, hregion, hx]
    exact Content.isSome_read hpart x.links

/-- An owner that points at a part of a record. -/
theorem valid_shared : shared.ReachableBy Command.ProjectsParts ∧ ∃ h ∈ shared.handles,
    h = { kind := .strong, ty := .int, pointer := some ⟨.resource 1, .x⟩, block := some 1 } ∧
      shared.Valid h := by
  have hshared : shared.ReachableBy Command.ProjectsParts := by
    refine reachableBy_performAll .refl ?_
    simp [sharing, Command.AllIn, Command.All, Command.ProjectsParts, Command.projection?,
      Projection.isPart_iff]
  refine ⟨hshared, _, ?_, rfl, valid_of_reachable hshared ?_⟩
  all_goals decide

end Machine

end SharedOwnership
