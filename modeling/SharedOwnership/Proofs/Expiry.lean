import SharedOwnership.Proofs.Teardown

/-!
# Expiry is final

A block has owners when it is made. Once the last of them is gone, nothing brings one back: neither
a lock, be it called inside the release action of the block or after that action was unwound, nor
any other operation on observers. So a block is live, then a zombie, then dead, in this order.

## Main definitions

* `Stage`, `Heap.stage` — how far the life of a block has come.
* `Machine.Expired` — whether a block has no owner, and nothing finds one.

## Main results

* `Machine.expiry_of_reachable` — a block without owners is expired for good.
-/

namespace SharedOwnership

/-- How far the life of a block has come. -/
inductive Stage
  /-- The label of the block was not handed out yet. -/
  | unborn
  | live
  /-- There is no owner left, but the block is still allocated. -/
  | zombie
  | dead
  deriving DecidableEq, Repr

/-- The place of a stage in the order of stages. -/
def Stage.rank : Stage → Nat
  | .unborn => 0
  | .live => 1
  | .zombie => 2
  | .dead => 3

namespace Heap

/-- The stage of the block labelled `l`. -/
def stage (heap : Heap) (l : Nat) : Stage :=
  match heap.blocks.get? l with
  | some b => if 0 < b.counts.strong then .live else .zombie
  | none => if 0 < l ∧ l < heap.blocks.next then .dead else .unborn

/-- Whether the label `l` was handed out. -/
def born (heap : Heap) (l : Nat) : Bool := 0 < l ∧ l < heap.blocks.next

variable {heap : Heap} {l : Nat}

theorem born_iff : heap.born l ↔ 0 < l ∧ l < heap.blocks.next := by simp [born]

theorem born_of_get? {b : Block} (hb : heap.blocks.get? l = some b) : heap.born l :=
  born_iff.2 ⟨Nat.pos_of_ne_zero fun hzero => by simp [hzero] at hb, Table.lt_next_of_get? hb⟩

/-- A block that was not made was not torn down. -/
theorem started_of_not_born (h : heap.born l = false) : heap.started l = false := by
  cases hb : heap.blocks.get? l with
  | some b => simp [born_of_get? hb] at h
  | none => rw [started_of_get?_eq_none hb, ← born, h]

theorem freed_of_not_born (h : heap.born l = false) : heap.freed l = false :=
  Bool.eq_false_iff.2 fun hfreed =>
    Bool.false_ne_true ((started_of_not_born h).symm.trans (started_of_freed hfreed))

end Heap

/-- The stage of a block tells whether it was made, whether its release action was started, and
whether it was freed. -/
theorem Ledger.Sound.rank_stage {L : Ledger} (hL : L.Sound) (l : Nat) :
    (L.heap.stage l).rank =
      (L.heap.born l).toNat + (L.heap.started l).toNat + (L.heap.freed l).toNat := by
  cases hb : L.heap.blocks.get? l with
  | some b =>
    have hlive := (hL.accounts l b hb).live
    rw [Heap.stage, hb, Heap.born_of_get? hb, Heap.started_of_get? hb, Heap.freed_of_get? hb]
    cases haction : b.action with
    | some action => simp [hlive.1 (by simp [haction]), Stage.rank]
    | none =>
      have hnone : ¬ 0 < b.counts.strong := fun hpos => by simpa [haction] using hlive.2 hpos
      simp [hnone, Stage.rank]
  | none =>
    rw [Heap.stage, hb, Heap.started_of_get?_eq_none hb, Heap.born]
    by_cases hborn : 0 < l ∧ l < L.heap.blocks.next
    · simp [hborn, Heap.freed_iff.2 ⟨hb, hborn⟩, Stage.rank]
    · have hfreed : L.heap.freed l = false := by
        rw [Bool.eq_false_iff, ne_eq, Heap.freed_iff]
        exact fun h => hborn h.2
      simp [hborn, hfreed, Stage.rank]

/-! ### One step at a time -/

namespace Ledger

variable {p : Command → Prop} {L L' : Ledger} {l : Nat}

/-- No label is taken back. -/
theorem Step.next_le (h : Step p L L') : L.heap.blocks.next ≤ L'.heap.blocks.next := by
  cases h with
  | entries h => exact h.keeps.next_le
  | turn M h h' => exact h.next_eq ▸ h'.keeps.next_le

/-- A turn starts the release action of a block or frees the block, but not both. -/
theorem Turn.started_add_freed_le (hL : L.Sound) (h : Turn L L') (l : Nat) :
    (L'.heap.started l).toNat + (L'.heap.freed l).toNat ≤
      (L.heap.started l).toNat + (L.heap.freed l).toNat + 1 := by
  have hset : ∀ l₁ b₁ b₁', L.heap.blocks.get? l₁ = some b₁ →
      L'.heap = L.heap.setBlock l₁ b₁' →
      (L'.heap.started l).toNat + (L'.heap.freed l).toNat ≤
        (L.heap.started l).toNat + (L.heap.freed l).toNat + 1 := by
    intro l₁ b₁ b₁' hb₁ hheap
    have hle : (L'.heap.started l).toNat ≤ 1 := Bool.toNat_le _
    rw [show L'.heap.freed l = L.heap.freed l by rw [hheap, Heap.freed_setBlock hb₁]]
    omega
  have herase : ∀ l₁ b₁, L.heap.blocks.get? l₁ = some b₁ → b₁.action = none →
      L'.heap = { L.heap with blocks := L.heap.blocks.erase l₁ } →
      (L'.heap.started l).toNat + (L'.heap.freed l).toNat ≤
        (L.heap.started l).toNat + (L.heap.freed l).toNat + 1 := by
    intro l₁ b₁ hb₁ hnone hheap
    have hle : (L'.heap.freed l).toNat ≤ 1 := Bool.toNat_le _
    rw [show L'.heap.started l = L.heap.started l by rw [hheap, Heap.started_erase hb₁ hnone]]
    omega
  cases h with
  | release h hs l₁ b₁ hL' hk hl hb₁ => exact hset l₁ b₁ _ hb₁ rfl
  | finish l₁ ls b₁ hL' hb₁ => exact hset l₁ b₁ _ hb₁ rfl
  | abandon l₁ ls b₁ hL' hb₁ => exact hset l₁ b₁ _ hb₁ rfl
  | free h hs l₁ b₁ hL' hk hl hb₁ hone =>
    have hh : h ∈ L.handles := hL' ▸ Multiset.mem_cons_self ..
    exact herase l₁ b₁ hb₁ (hL.of_last_observer hh hk hl hb₁ hone).1 rfl
  | finishFree l₁ ls b₁ hL' hb₁ hone =>
    have hmem : l₁ ∈ L.finishing := hL' ▸ Multiset.mem_cons_self ..
    exact herase l₁ b₁ hb₁ (hL.of_mem_finishing hmem hb₁).1 rfl

/-- No step takes a block past a stage. -/
theorem Step.rank_stage_le (hL : L.Sound) (h : Step p L L') (l : Nat) :
    (L'.heap.stage l).rank ≤ (L.heap.stage l).rank + 1 := by
  rw [hL.rank_stage, (h.sound hL).rank_stage]
  cases h with
  | entries h =>
    have hle : (L'.heap.born l).toNat ≤ 1 := Bool.toNat_le _
    rw [h.keeps.started, h.keeps.freed]
    omega
  | turn M h h' =>
    rw [h'.keeps.started, h'.keeps.freed]
    cases hborn : L.heap.born l with
    | true =>
      have hturn := h.started_add_freed_le hL l
      have hle : (L'.heap.born l).toNat ≤ 1 := Bool.toNat_le _
      simp only [Bool.toNat_true]
      omega
    | false =>
      -- a block that this very step makes is not the one whose turn it is
      have hborn' : M.heap.born l = false := by rw [← hborn, Heap.born, Heap.born, h.next_eq]
      have hle : (L'.heap.born l).toNat ≤ 1 := Bool.toNat_le _
      rw [Heap.started_of_not_born hborn', Heap.freed_of_not_born hborn']
      simp only [Bool.toNat_false]
      omega

end Ledger

/-! ### Observers of a block without owners -/

/-- A block without owners is not locked, and nothing changes. -/
theorem Heap.lock_of_count_eq_zero {heap : Heap} {h : Handle} {l : Nat} (hl : h.block = some l)
    (hzero : heap.count .strong l = 0) :
    heap.lock h = (heap, .ok (.empty .strong h.ty)) := by
  simp only [lock, hl]
  cases hb : heap.blocks.get? l with
  | none => rfl
  | some b =>
    have hnone : b.promote = .ok none := by
      rw [count_of_get? .strong hb] at hzero
      exact Block.promote_eq_none.2 hzero
    simp only [hnone]

namespace Machine

variable {m n : Machine} {l : Nat}

/-- The block labelled `l` has no owner, and its observers, if it has any, find none. -/
structure Expired (m : Machine) (l : Nat) : Prop where
  count : m.state.heap.count .strong l = 0
  observer : ∀ h ∈ m.handles, h.block = some l → h.kind = .weak
  useCount : ∀ h ∈ m.handles, h.block = some l → m.state.heap.useCount h = 0
  inspection : ∀ h ∈ m.handles, h.block = some l → (m.state.inspection h).expired = some true
  /-- A lock gives an owner of nothing, and the heap stays as it is. -/
  lock : ∀ h ∈ m.handles, h.block = some l →
    m.state.heap.lock h = (m.state.heap, .ok (.empty .strong h.ty))

theorem born_of_leads (hm : m.Reachable) (h : Leads (fun _ => True) m n)
    (hborn : m.state.heap.born l) : n.state.heap.born l := by
  induction h with
  | refl => exact hborn
  | @tail k _ hk hmove ih =>
    cases hmove with
    | step =>
      obtain ⟨hL, hobeys⟩ := ReachableBy.sound_obeys (hm.leads hk)
      obtain ⟨hpos, hlt⟩ := Heap.born_iff.1 ih
      exact Heap.born_iff.2 ⟨hpos, hlt.trans_le (step_ledger hL hobeys).next_le⟩
    | command => exact ih

/-- The stage of a block never falls. -/
theorem rank_stage_le_of_leads (hm : m.Reachable) (h : Leads (fun _ => True) m n) (l : Nat) :
    (m.state.heap.stage l).rank ≤ (n.state.heap.stage l).rank := by
  have hL : m.ledger.Sound := ReachableBy.sound hm
  have hL' : n.ledger.Sound := ReachableBy.sound (hm.leads h)
  have hmono : ∀ {a b : Bool}, (a → b) → a.toNat ≤ b.toNat := by decide
  have hborn := hmono (born_of_leads hm h (l := l))
  have hstarted := hmono (started_of_leads hm h (l := l))
  have hfreed := hmono (freed_of_leads hm h (l := l))
  calc (m.state.heap.stage l).rank
      = (m.state.heap.born l).toNat + (m.state.heap.started l).toNat +
          (m.state.heap.freed l).toNat := hL.rank_stage l
    _ ≤ (n.state.heap.born l).toNat + (n.state.heap.started l).toNat +
          (n.state.heap.freed l).toNat := by omega
    _ = (n.state.heap.stage l).rank := (hL'.rank_stage l).symm

/-- Without owners the release action of a block was started. -/
theorem started_of_count_eq_zero (hm : m.Reachable) (hborn : m.state.heap.born l)
    (hzero : m.state.heap.count .strong l = 0) : m.state.heap.started l := by
  have hL : m.ledger.Sound := ReachableBy.sound hm
  cases hb : m.state.heap.blocks.get? l with
  | none => rwa [Heap.started_of_get?_eq_none hb]
  | some b =>
    rw [Heap.count_of_get? .strong hb] at hzero
    have hnone := mt (hL.accounts l b hb).live.1 (Nat.not_lt.2 (Nat.le_zero.2 hzero))
    rw [Heap.started_of_get? hb]
    simpa using hnone

theorem expired_of_started (hm : m.Reachable) (hstarted : m.state.heap.started l) :
    m.Expired l := by
  have hL : m.ledger.Sound := ReachableBy.sound hm
  have hnone : ∀ b, m.state.heap.blocks.get? l = some b → b.action.isSome = false := by
    intro b hb
    rw [Heap.started_of_get? hb] at hstarted
    simpa using hstarted
  have hzero : m.state.heap.count .strong l = 0 := by
    by_contra hpos
    obtain ⟨b, hb, hcount⟩ := Heap.exists_of_count_pos (Nat.pos_of_ne_zero hpos)
    have hstrong : 0 < b.counts.get .strong := hcount ▸ Nat.pos_of_ne_zero hpos
    exact Bool.false_ne_true ((hnone b hb).symm.trans ((hL.accounts l b hb).live.2 hstrong))
  have hobserver : ∀ h ∈ m.handles, h.block = some l → h.kind = .weak := by
    intro h hh hl
    obtain ⟨b, hb⟩ := hL.exists_block hh hl
    cases hk : h.kind with
    | weak => rfl
    | strong =>
      exact absurd (hL.isSome_action hh hk hl hb) (by simp [hnone b hb])
  have huse : ∀ h : Handle, h.block = some l → m.state.heap.useCount h = 0 := by
    intro h hl
    rw [Heap.useCount, hl]
    exact hzero
  refine ⟨hzero, hobserver, fun h _ hl => huse h hl, fun h hh hl => ?_, fun h _ hl => ?_⟩
  · simp [State.inspection, hobserver h hh hl, huse h hl]
  · exact Heap.lock_of_count_eq_zero hl hzero

/-- A block without owners is expired for good, and no step of a run takes a block back, or past a
stage of its life. -/
theorem expiry_of_reachable (hm : m.Reachable) (h : Leads (fun _ => True) m n) (l : Nat) :
    (m.state.heap.born l → m.state.heap.count .strong l = 0 → n.Expired l) ∧
      (m.state.heap.stage l).rank ≤ (n.state.heap.stage l).rank ∧
      (n.step.state.heap.stage l).rank ≤ (n.state.heap.stage l).rank + 1 := by
  obtain ⟨hL, hobeys⟩ := ReachableBy.sound_obeys (hm.leads h)
  refine ⟨fun hborn hzero => ?_, rank_stage_le_of_leads hm h l,
    (step_ledger hL hobeys).rank_stage_le hL l⟩
  have hstarted := started_of_count_eq_zero hm hborn hzero
  exact expired_of_started (hm.leads h) (started_of_leads hm h hstarted)

/-- Amid its release action a block is a zombie, and so it is when that has ended and the observer
that it cloned is locked. -/
theorem expiry_amidRelease : amidRelease.Reachable ∧ amidRelease.state.heap.born 1 ∧
    amidRelease.state.heap.count .strong 1 = 0 ∧
    ∃ n, Leads (fun _ => True) amidRelease n ∧ n.state.heap.stage 1 = .zombie ∧ n.Expired 1 := by
  let ended := (amidRelease.steps 20).performAll [.lock "other" "late"]
  have hleads : Leads (fun _ => True) amidRelease ended :=
    (leads_steps amidRelease 20).trans
      (leads_performAll (Command.allIn_of_forall (fun _ => trivial) _))
  exact ⟨reachable_amidRelease, rfl, rfl, ended, hleads, rfl,
    (expiry_of_reachable reachable_amidRelease hleads 1).1 rfl rfl⟩

end Machine

end SharedOwnership
