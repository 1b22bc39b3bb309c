import SharedOwnership.Proofs.Begin
import SharedOwnership.Proofs.Ownership.Fixpoint
import SharedOwnership.Proofs.Teardown

/-!
# An overflow fails safe

Whatever adds a unit to a counter obtains it just as long as the counter is at most the limit. Most
commands raise the counter first and look at it then, so above the limit they panic with the counter
raised, and the unit is lost; a lock looks first and leaves the counter as it is. No command can
take a lost unit back, so a counter that lost a unit never comes to its last unit again: the
resource is never released, or the block never freed, and the handles of the block stay valid.

## Main definitions

* `Command.Asks` — whether a command asks for a further unit.
* `Machine.Obtains` — whether the next step adds the unit, with a handle that holds it.
* `Machine.Outlasts` — what holds of a block that lost a unit.
* `Machine.FailsSafe` — what becomes of a unit that is asked for.

## Main results

* `Machine.outlasts_of_leads` — a block outlasts the loss of a unit for good.
* `Machine.failsSafe_of_reachable` — no overflow does harm.
-/

namespace SharedOwnership

/-! ### Lost units stay -/

/-- A block that is allocated lost a unit. -/
def Ledger.Lost (L : Ledger) (k : Kind) (l : Nat) : Prop :=
  ∃ b, L.heap.blocks.get? l = some b ∧ 0 < b.lost.get k

namespace Ledger

variable {p : Command → Prop} {L L' : Ledger} {k : Kind} {l l' : Nat} {b b' : Block}

theorem Lost.of_blocks (h : L.Lost k l) (hblocks : L'.heap.blocks = L.heap.blocks) :
    L'.Lost k l := by
  rw [Lost, hblocks]
  exact h

/-- The block that lost a unit is replaced by one that lost as many, or another block is. -/
theorem Lost.of_setBlock (h : L.Lost k l) (hb : L.heap.blocks.get? l' = some b)
    (hheap : L'.heap = L.heap.setBlock l' b') (hle : b.lost.get k ≤ b'.lost.get k) :
    L'.Lost k l := by
  obtain ⟨c, hc, hpos⟩ := h
  rw [Lost, hheap]
  by_cases heq : l' = l
  · subst heq
    obtain rfl : b = c := Option.some.inj (hb.symm.trans hc)
    exact ⟨b', Heap.get?_setBlock_self hb b', Nat.lt_of_lt_of_le hpos hle⟩
  · refine ⟨c, ?_, hpos⟩
    rw [Heap.get?_setBlock hb, if_neg heq, hc]

theorem Lost.of_erase (h : L.Lost k l)
    (hheap : L'.heap = { L.heap with blocks := L.heap.blocks.erase l' })
    (hb : L.heap.blocks.get? l' = some b) (hnone : b.lost.get k = 0) : L'.Lost k l := by
  obtain ⟨c, hc, hpos⟩ := h
  rw [Lost, hheap]
  have hne : l' ≠ l := by
    intro heq
    subst heq
    obtain rfl : b = c := Option.some.inj (hb.symm.trans hc)
    omega
  refine ⟨c, ?_, hpos⟩
  rw [Table.get?_erase, if_neg hne, hc]

/-- An overflow adds to what is lost; nothing takes from it. -/
theorem Entry.lost (h : Entry p L L') (hl : L.Lost k l) : L'.Lost k l := by
  cases h with
  | note | addEmpty | dropEmpty | repoint | relink | destroy | orphan => exact hl.of_blocks rfl
  | share h j l' b hh hl' hb hj hc =>
    apply hl.of_setBlock hb rfl
    rw [Block.lost_addUnit_of_le hc]
  | overflow j l' b hb hc =>
    apply hl.of_setBlock hb rfl
    rw [Block.lost_addUnit_of_lt hc, Counts.get_modify]
    split <;> omega
  | promote h l' b b' hh hl' hb hp =>
    obtain ⟨-, -, rfl⟩ := Block.promote_eq_some.1 hp
    exact hl.of_setBlock hb rfl (Nat.le_refl _)
  | letGo h hs l' b hL hl' hb hc => exact hl.of_setBlock hb rfl (Nat.le_refl _)
  | lend j n l' b b' hb hlend =>
    obtain ⟨-, rfl⟩ := Block.lend_eq_some hlend
    exact hl.of_setBlock hb rfl (Nat.le_refl _)
  | takeBack j n l' b b' hb htake =>
    obtain ⟨-, -, rfl⟩ := Block.takeBack_eq_some htake
    exact hl.of_setBlock hb rfl (Nat.le_refl _)
  | adopt ty c layout action =>
    obtain ⟨b, hb, hpos⟩ := hl
    refine ⟨b, ?_, hpos⟩
    rw [Heap.get?_allocate, Heap.blocks_keep, if_neg (Nat.ne_of_lt (Table.lt_next_of_get? hb)), hb]

theorem Entries.lost (h : Entries p L L') (hl : L.Lost k l) : L'.Lost k l := by
  induction h with
  | refl => exact hl
  | tail _ h ih => exact h.lost ih

/-- A block whose last weak unit goes lost no unit. -/
theorem Sound.lost_eq_zero (hL : L.Sound) (hb : L.heap.blocks.get? l = some b)
    (haction : b.action = none) (hone : b.counts.weak = 1)
    (hheld : 0 < holders .weak l L.handles + L.common l b) (k : Kind) : b.lost.get k = 0 := by
  have hacc := hL.accounts l b hb
  have hcounted := hacc.counted k
  rw [Block.unheld] at hcounted
  cases k with
  | strong =>
    have hzero : ¬ 0 < b.counts.strong := by
      intro hpos
      simpa [haction] using hacc.live.2 hpos
    simp only [Counts.get] at hcounted ⊢
    omega
  | weak =>
    simp only [Counts.get, if_true] at hcounted ⊢
    omega

/-- Only blocks that lost no unit are freed. -/
theorem Turn.lost (hL : L.Sound) (h : Turn L L') (hl : L.Lost k l) : L'.Lost k l := by
  cases h with
  | release h hs l' b hL' hk hl' hb hc => exact hl.of_setBlock hb rfl (Nat.le_refl _)
  | finish l' ls b hL' hb hc => exact hl.of_setBlock hb rfl (Nat.le_refl _)
  | abandon l' ls b hL' hb => exact hl.of_setBlock hb rfl (Nat.le_refl _)
  | free h hs l' b hL' hk hl' hb hc =>
    have hh : h ∈ L.handles := hL' ▸ Multiset.mem_cons_self ..
    have haction := (hL.of_last_observer hh hk hl' hb hc).1
    have hpos := holders_pos hh hk hl'
    exact hl.of_erase rfl hb (hL.lost_eq_zero hb haction hc (by omega) k)
  | finishFree l' ls b hL' hb hc =>
    have hmem : l' ∈ L.finishing := hL' ▸ Multiset.mem_cons_self ..
    obtain ⟨haction, hcount, -⟩ := hL.of_mem_finishing hmem hb
    have hcommon : 0 < L.common l' b := by
      rw [common, hcount]
      omega
    exact hl.of_erase rfl hb (hL.lost_eq_zero hb haction hc (by omega) k)

theorem Step.lost (hL : L.Sound) (h : Step p L L') (hl : L.Lost k l) : L'.Lost k l := by
  cases h with
  | entries h => exact h.lost hl
  | turn M h h' => exact h'.lost (h.lost hL hl)

end Ledger

namespace Machine

variable {m n : Machine} {k : Kind} {l : Nat} {b : Block} {c : Command} {h g : Handle}
  {rest : List Task}

/-- A block that lost a unit is there for good. -/
theorem lost_of_leads (hm : m.Reachable) (h : Leads (fun _ => True) m n) (hl : m.ledger.Lost k l) :
    n.ledger.Lost k l := by
  induction h with
  | refl => exact hl
  | @tail j _ hj hmove ih =>
    cases hmove with
    | step =>
      obtain ⟨hL, hobeys⟩ := ReachableBy.sound_obeys (hm.leads hj)
      exact (step_ledger hL hobeys).lost hL ih
    | command c hc hcontrol hstack => exact ih.of_blocks rfl

/-- What holds of a block that lost a unit of kind `k`, in whatever machine a run comes to: its
counter is above the number of handles that hold its units. -/
structure Outlasts (m : Machine) (k : Kind) (l : Nat) : Prop where
  block : ∃ b, m.state.heap.blocks.get? l = some b ∧ holders k l m.handles < b.counts.get k
  not_frees : ¬ m.Frees l
  not_freed : ∀ layout, .deallocated l layout ∉ m.state.trace
  not_starts : k = .strong → ¬ m.Starts l
  not_started : k = .strong → .releasing l ∉ m.state.trace
  /-- The resource of the block is there. -/
  resource : k = .strong → ∀ b r, m.state.heap.blocks.get? l = some b → b.resource = some r →
    ∃ x, m.state.heap.resources.get? r = some x
  /-- No handle of the block dangles. -/
  supports : ∀ h ∈ m.handles, h.block = some l → m.state.heap.Supports h

/-- The release action of a block that lost a strong unit was not started. -/
theorem isSome_action_of_lost (hL : m.ledger.Sound) (hl : m.ledger.Lost .strong l)
    (hb : m.state.heap.blocks.get? l = some b) : b.action.isSome := by
  obtain ⟨c, hc, hpos⟩ := hl
  obtain rfl : b = c := Option.some.inj (hb.symm.trans hc)
  have hacc := hL.accounts l b hb
  have hstrong := hacc.strong
  simp only [Block.unheld, Counts.get] at hstrong hpos
  exact hacc.live.2 (by omega)

/-- Wherever a run goes from a block that lost a unit, the block outlasts that. -/
theorem outlasts_of_leads (hm : m.Reachable) (h : Leads (fun _ => True) m n)
    (hl : m.ledger.Lost k l) : n.Outlasts k l := by
  have hn : n.Reachable := hm.leads h
  have hL : n.ledger.Sound := ReachableBy.sound hn
  have hL' : n.step.ledger.Sound := ReachableBy.sound (hn.leads (leads_step n))
  have hlost : n.ledger.Lost k l := lost_of_leads hm h hl
  have hlost' : n.step.ledger.Lost k l := lost_of_leads hn (leads_step n) hlost
  have hchronicle := chronicle_of_reachable hn
  obtain ⟨b, hb, hpos⟩ := hlost
  refine ⟨⟨b, hb, ?_⟩, ?_, ?_, ?_, ?_, ?_, fun h hh _ => hL.supports h hh⟩
  · have hcounted := (hL.accounts l b hb).counted k
    rw [Block.unheld, handles_ledger] at hcounted
    omega
  · rintro ⟨-, -, hnone⟩
    obtain ⟨b', hb', -⟩ := hlost'
    cases hnone.symm.trans hb'
  · intro layout htold
    have hcount := hchronicle.deallocated l
    rw [Heap.freed_of_get? hb, Bool.toNat_false, List.countP_eq_zero] at hcount
    exact hcount _ htold (by simp [Event.frees])
  · rintro rfl ⟨-, b', -, -, hb', hnone⟩
    have hsome := isSome_action_of_lost hL' hlost' hb'
    rw [hnone] at hsome
    cases hsome
  · rintro rfl htold
    have hcount := hchronicle.releasing l
    have hsome := isSome_action_of_lost hL ⟨b, hb, hpos⟩ hb
    have hnone : b.action.isNone = false := by simpa using hsome
    rw [Heap.started_of_get? hb, hnone, Bool.toNat_false, List.count_eq_zero] at hcount
    exact hcount htold
  · rintro rfl c r hc hr
    exact (hL.stays l c r hc (isSome_action_of_lost hL ⟨b, hb, hpos⟩ hc) hr).1

end Machine

/-! ### Asking for a unit -/

/-- The block after an overflow: its counter is one higher, and the unit is lost. -/
def Block.overflowed (b : Block) (k : Kind) : Block :=
  { b with counts := b.counts.modify k (· + 1), lost := b.lost.modify k (· + 1) }

/-- A task asks for a further unit of kind `k`, on behalf of the handle `h`. -/
inductive Task.Asks (s : State) : Task → Kind → Handle → Prop
  | clone {name target : String} {h : Handle} (hg : s.slots.get? name = some h)
      (hv : s.slots.get? target = none) : Asks s (.perform (.clone name target)) h.kind h
  | downgrade {name target : String} {h : Handle} (hg : s.slots.get? name = some h)
      (hv : s.slots.get? target = none) (hk : h.kind = .strong) :
    Asks s (.perform (.downgrade name target)) .weak h
  /-- A handle that is assigned is cloned first. -/
  | assign {name source : String} {h g : Handle} (hpair : s.pair name source = .ok (h, g)) :
    Asks s (.perform (.assign name source)) g.kind g
  | projectClone {name target : String} {h : Handle} {f : Projection} {ty : Ty}
      (hg : s.slots.get? name = some h) (hv : s.slots.get? target = none)
      (hty : f.target h.kind h.ty = some ty) :
    Asks s (.perform (.projectClone name target (some f))) h.kind h
  | lock {name target : String} {h : Handle} (hg : s.slots.get? name = some h)
      (hv : s.slots.get? target = none) (hk : h.kind = .weak) :
    Asks s (.perform (.lock name target)) .strong h
  /-- An observer is locked while its owner is dropped on another thread. -/
  | observe (slot : String) (w : Handle) (puts : List (String × Handle)) :
    Asks s (.settle ((slot, w) :: puts) .observed) .strong w

namespace Task

variable {s : State} {t : Task} {k : Kind} {h : Handle} {l : Nat} {b : Block}

/-- Whether a task looks at the counter before it adds to it. -/
def locks : Task → Bool
  | .perform (.lock _ _) | .settle _ _ => true
  | _ => false

/-- The handles that a task puts back into their slots in the end. -/
def puts : Task → List (String × Handle)
  | .settle puts _ => puts
  | _ => []

/-- The further handle that a task makes of `h`. -/
def make (t : Task) (heap : Heap) (h : Handle) (k : Kind) : Heap × Except Panic Handle :=
  if t.locks then heap.lock h else heap.share h k

theorem resources_make (t : Task) (heap : Heap) (h : Handle) (k : Kind) :
    (t.make heap h k).1.resources = heap.resources := by
  rw [make]
  split
  · exact Heap.resources_lock ..
  · exact Heap.resources_share ..

/-- Above the limit a unit is lost. -/
theorem make_of_not_locks (hnot : t.locks = false) (hl : h.block = some l)
    (hb : s.heap.blocks.get? l = some b) (hlt : unitLimit < b.counts.get k) : t.make s.heap h k =
      (s.heap.setBlock l (b.overflowed k), .error k.overflow) := by
  rw [make, hnot, if_neg Bool.false_ne_true, Heap.share_of_block hl hb,
    Block.addUnit_of_lt hlt, Block.addUnit, if_neg (Nat.not_le.2 hlt)]
  rfl

/-- A lock that finds no owner adds nothing. -/
theorem make_of_expired (hlocks : t.locks) (hl : h.block = some l)
    (hb : s.heap.blocks.get? l = some b) (hzero : b.counts.strong = 0) :
    t.make s.heap h k = (s.heap, .ok (.empty .strong h.ty)) := by
  have hpromote : b.promote = .ok none := Block.promote_eq_none.2 hzero
  simp only [make, hlocks, if_true, Heap.lock, hl, hb, hpromote]

namespace Asks

theorem kind_of_locks (ht : t.Asks s k h) (hlocks : t.locks) : k = .strong := by
  cases ht <;> first | rfl | cases hlocks

/-- Up to the limit a unit is added; an observer without owners is not locked. -/
theorem make_of_le (ht : t.Asks s k h) (hl : h.block = some l)
    (hb : s.heap.blocks.get? l = some b) (hle : b.counts.get k ≤ unitLimit)
    (hpos : t.locks → 0 < b.counts.strong) : t.make s.heap h k =
      (s.heap.setBlock l { b with counts := b.counts.modify k (· + 1) },
        .ok { h with kind := k }) := by
  rw [make]
  split
  · next hlocks =>
    obtain rfl := ht.kind_of_locks hlocks
    have hpromote : b.promote =
        .ok (some { b with counts := b.counts.modify .strong (· + 1) }) :=
      Block.promote_eq_some.2 ⟨hpos hlocks, hle, rfl⟩
    simp only [Heap.lock, hl, hb, hpromote]
  · rw [Heap.share_of_block hl hb, Block.addUnit_of_le hle, Block.addUnit, if_pos hle]
    rfl

/-- Above the limit a lock adds nothing. -/
theorem make_of_locks (ht : t.Asks s k h) (hlocks : t.locks) (hl : h.block = some l)
    (hb : s.heap.blocks.get? l = some b) (hlt : unitLimit < b.counts.get k) :
    t.make s.heap h k = (s.heap, .error k.overflow) := by
  obtain rfl := ht.kind_of_locks hlocks
  have hpromote : b.promote = .error .strongOverflow := by
    have hlt' : unitLimit < b.counts.strong := hlt
    rw [Block.promote, if_neg (by omega), if_neg (by omega)]
  simp only [make, hlocks, if_true, Heap.lock, hl, hb, hpromote]
  rfl

end Asks

end Task

namespace Machine

variable {m n : Machine} {s : State} {t : Task} {k : Kind} {l : Nat} {b : Block} {h new : Handle}
  {heap : Heap} {e : Panic} {rest : List Task}

/-- A task that asks for a unit and panics makes nothing, and projects nothing. -/
theorem advance_of_panic (ht : t.Asks s k h) (hmade : t.make s.heap h k = (heap, .error e)) :
    advance s t rest =
      { state := { s with heap }, stack := .settle t.puts (.answer (.panicked e)) :: rest } := by
  cases ht with
  | clone hg hv =>
    have hclone : s.heap.clone h = (heap, .error e) := hmade
    rw [advance_perform (State.begin_clone hg hv), hclone]
    rfl
  | downgrade hg hv hk =>
    have hdowngrade : s.heap.downgrade h = (heap, .error e) := hmade
    rw [advance_perform (State.begin_downgrade hg hv hk), hdowngrade]
    rfl
  | assign hpair =>
    have hclone : s.heap.clone h = (heap, .error e) := hmade
    rw [advance_perform (State.begin_assign hpair), hclone]
    rfl
  | projectClone hg hv hty =>
    have hclone : s.heap.clone h = (heap, .error e) := hmade
    rw [advance_perform (State.begin_projectClone hg hv hty), State.projectClone, hclone]
    rfl
  | lock hg hv hk =>
    have hlock : s.heap.lock h = (heap, .error e) := hmade
    rw [advance_perform (State.begin_lock hg hv hk), hlock]
    rfl
  | observe slot w puts =>
    have hlock : s.heap.lock h = (heap, .error e) := hmade
    simp only [advance, resolve, hlock]
    rfl

/-- A handle that was made for a vacant slot is one more. -/
theorem handles_deliver {target : String} (hv : s.slots.get? target = none)
    (hr : heap.resources = s.heap.resources) (new : Handle) (answer : Handle → Answer) :
    (run (s.deliver target (heap, .ok new) answer) rest).handles =
      new ::ₘ (s.ledger rest).handles := by
  have hput := State.ledger_put (s := { s with heap }) hv new rest
  rw [State.ledger_withHeap s hr] at hput
  exact congrArg Ledger.handles hput

/-- A handle that is dropped next is one more until then. -/
theorem handles_drop (hr : heap.resources = s.heap.resources) (new : Handle) (ts : List Task) :
    (Machine.mk { s with heap } .running (.drop new :: ts)).handles =
      new ::ₘ (s.ledger ts).handles := by
  have hdrop := State.ledger_drop { s with heap } new ts
  rw [State.ledger_withHeap s hr ts] at hdrop
  exact congrArg Ledger.handles hdrop

/-- A task that asks for a unit and obtains it has a handle for it, of the same kind and block as
the one that was made: in a slot, or on the stack while a projection unwinds or a lock is told. -/
theorem handles_advance (ht : t.Asks s k h) (hmade : t.make s.heap h k = (heap, .ok new))
    (rest : List Task) :
    (advance s t rest).state.heap = heap ∧ ∃ g : Handle, g.kind = new.kind ∧ g.block = new.block ∧
      (advance s t rest).handles = g ::ₘ (s.ledger (t :: rest)).handles := by
  have hr : heap.resources = s.heap.resources := by
    have hmake := t.resources_make s.heap h k
    rwa [hmade] at hmake
  cases ht with
  | clone hg hv =>
    have hclone : s.heap.clone h = (heap, .ok new) := hmade
    rw [advance_perform (State.begin_clone hg hv), hclone]
    exact ⟨rfl, new, rfl, rfl, handles_deliver hv hr new _⟩
  | downgrade hg hv hk =>
    have hdowngrade : s.heap.downgrade h = (heap, .ok new) := hmade
    rw [advance_perform (State.begin_downgrade hg hv hk), hdowngrade]
    exact ⟨rfl, new, rfl, rfl, handles_deliver hv hr new _⟩
  | lock hg hv hk =>
    have hlock : s.heap.lock h = (heap, .ok new) := hmade
    rw [advance_perform (State.begin_lock hg hv hk), hlock]
    exact ⟨rfl, new, rfl, rfl, handles_deliver hv hr new _⟩
  | assign hpair =>
    have hclone : s.heap.clone h = (heap, .ok new) := hmade
    obtain ⟨hne, hg, hg'⟩ := State.pair_eq_ok hpair
    rw [advance_perform (State.begin_assign hpair), hclone]
    have hassign := State.ledger_assign hr hne hg hg' new (.answer .done) rest
    exact ⟨rfl, new, rfl, rfl, congrArg Ledger.handles hassign⟩
  | @projectClone name target _ f ty hg hv hty =>
    have hclone : s.heap.clone h = (heap, .ok new) := hmade
    rw [advance_perform (State.begin_projectClone hg hv hty), State.projectClone, hclone]
    cases hpointed : heap.pointed new f with
    | ok pointer =>
      simp only [hpointed]
      refine ⟨rfl, { new with ty, pointer }, rfl, rfl, ?_⟩
      exact handles_deliver hv hr { new with ty, pointer } fun _ => .done
    | error e =>
      simp only [hpointed]
      exact ⟨rfl, new, rfl, rfl,
        handles_drop hr new (.resume e :: .settle [] (.answer .done) :: rest)⟩
  | observe slot w puts =>
    have hlock : s.heap.lock h = (heap, .ok new) := hmade
    simp only [advance, resolve, hlock]
    refine ⟨trivial, new, rfl, rfl, ?_⟩
    exact handles_drop hr new (.settle ((slot, h) :: puts)
      (.answer (.raced (s.heap.useCount h) new.pointer.isNone)) :: rest)

/-- Whoever asks for a unit holds a handle. -/
theorem mem_handles_of_asks (hstack : m.stack = t :: rest) (ht : t.Asks m.state k h) :
    h ∈ m.handles := by
  cases ht with
  | clone hg | downgrade hg | projectClone hg | lock hg => exact mem_handles_of_slot hg
  | assign hpair => exact mem_handles_of_slot (State.pair_eq_ok hpair).2.2
  | observe slot w puts =>
    apply mem_handles_of_stack hstack
    exact List.mem_cons_self

/-! ### The main result -/

/-- The next step adds a unit of kind `k` to the block, and a further handle holds it. -/
structure Obtains (m : Machine) (k : Kind) (l : Nat) (b : Block) : Prop where
  heap : m.step.state.heap = m.state.heap.setBlock l { b with counts := b.counts.modify k (· + 1) }
  handle : ∃ g : Handle, g.kind = k ∧ g.block = some l ∧ m.step.handles = g ::ₘ m.handles

/-- A task asks for a unit of kind `k` of the block `b`: it obtains the unit, or fails safe. -/
structure FailsSafe (m : Machine) (t : Task) (k : Kind) (l : Nat) (b : Block)
    (rest : List Task) : Prop where
  /-- The unit is obtained just as long as the counter is at most the limit; a lock takes an owner,
  too. -/
  obtains : m.Obtains k l b ↔ b.counts.get k ≤ unitLimit ∧ (t.locks → 0 < b.counts.strong)
  /-- Above the limit a lock panics and leaves the state as it is. -/
  locked : t.locks → unitLimit < b.counts.get k → m.step =
    { state := m.state, stack := .settle t.puts (.answer (.panicked k.overflow)) :: rest }
  /-- Any other task panics when it has raised the counter, which is all that it does. -/
  raised : t.locks = false → unitLimit < b.counts.get k → m.step =
    { state := { m.state with heap := m.state.heap.setBlock l (b.overflowed k) },
      stack := .settle t.puts (.answer (.panicked k.overflow)) :: rest }
  /-- The panic tells which counter it was. -/
  message : k.overflow.message = match k with
    | .strong => "strong reference count overflow"
    | .weak => "weak reference count overflow"
  /-- No handle is made, and none goes. -/
  handles : unitLimit < b.counts.get k → m.step.handles = m.handles
  /-- A counter that was raised in vain never comes down to its last unit. -/
  outlasts : t.locks = false → unitLimit < b.counts.get k →
    ∀ n, Leads (fun _ => True) m.step n → n.Outlasts k l

/-- What a task makes that asks for a unit is what the step does. -/
theorem step_of_panic (hcontrol : m.control = .running) (hstack : m.stack = t :: rest)
    (ht : t.Asks m.state k h) (hmade : t.make m.state.heap h k = (heap, .error e)) : m.step =
      { state := { m.state with heap },
        stack := .settle t.puts (.answer (.panicked e)) :: rest } := by
  rw [step_of_running hcontrol hstack, advance_of_panic ht hmade]

theorem handles_of_panic (hcontrol : m.control = .running) (hstack : m.stack = t :: rest)
    (ht : t.Asks m.state k h) (hmade : t.make m.state.heap h k = (heap, .error e)) :
    m.step.handles = m.handles := by
  have hr : heap.resources = m.state.heap.resources := by
    have hmake := t.resources_make m.state.heap h k
    rwa [hmade] at hmake
  have htasks : t.handles = (Task.settle t.puts (.answer (.panicked e))).handles := by
    cases ht <;> rfl
  rw [step_of_panic hcontrol hstack ht hmade, handles, handles, hstack, Heap.links_congr hr]
  rw [List.flatMap_cons, List.flatMap_cons, htasks]

theorem handles_of_ok (hcontrol : m.control = .running) (hstack : m.stack = t :: rest)
    (ht : t.Asks m.state k h) (hmade : t.make m.state.heap h k = (heap, .ok new)) :
    m.step.state.heap = heap ∧ ∃ g : Handle, g.kind = new.kind ∧ g.block = new.block ∧
      m.step.handles = g ::ₘ m.handles := by
  have hmade' := handles_advance ht hmade rest
  rw [← hstack] at hmade'
  rw [step_of_running hcontrol hstack]
  exact hmade'

/-- A unit is obtained just as long as the counter is at most the limit. -/
theorem obtains_iff (hcontrol : m.control = .running) (hstack : m.stack = t :: rest)
    (ht : t.Asks m.state k h) (hl : h.block = some l) (hb : m.state.heap.blocks.get? l = some b)
    (hpanics : unitLimit < b.counts.get k → m.step.handles = m.handles) :
    m.Obtains k l b ↔ b.counts.get k ≤ unitLimit ∧ (t.locks → 0 < b.counts.strong) := by
  constructor
  · intro hobtains
    obtain ⟨g, -, -, hg⟩ := hobtains.handle
    refine ⟨?_, ?_⟩
    · by_contra hlt
      rw [hpanics (Nat.not_le.1 hlt)] at hg
      exact (Multiset.lt_cons_self _ _).ne hg
    · intro hlocks
      by_contra hzero
      have hzero' : b.counts.strong = 0 := Nat.eq_zero_of_not_pos hzero
      -- the heap is as it was, so its counter cannot have been raised
      have hmade := Task.make_of_expired (k := k) hlocks hl hb hzero'
      have hsame := (handles_of_ok hcontrol hstack ht hmade).1
      have hraised := Heap.get?_setBlock_self hb
        { b with counts := b.counts.modify k (· + 1) }
      rw [← hobtains.heap, hsame, hb, Option.some.injEq] at hraised
      have hcount := congrArg (fun b => b.counts.get k) hraised
      simp at hcount
  · rintro ⟨hle, hpos⟩
    have hmade := ht.make_of_le hl hb hle hpos
    obtain ⟨hheap, hhandle⟩ := handles_of_ok hcontrol hstack ht hmade
    exact ⟨hheap, hhandle.imp fun g hg => ⟨hg.1, hg.2.1.trans hl, hg.2.2⟩⟩

/-- Whatever asks for a unit of a block obtains it or fails safe. -/
theorem failsSafe_of_reachable (hm : m.Reachable) (hcontrol : m.control = .running)
    (hstack : m.stack = t :: rest) (ht : t.Asks m.state k h) (hl : h.block = some l) :
    ∃ b, m.state.heap.blocks.get? l = some b ∧ m.FailsSafe t k l b rest := by
  have hL : m.ledger.Sound := ReachableBy.sound hm
  obtain ⟨b, hb⟩ := hL.exists_block (mem_handles_of_asks hstack ht) hl
  have hb' : m.state.heap.blocks.get? l = some b := hb
  have hraised : t.locks = false → unitLimit < b.counts.get k → m.step =
      { state := { m.state with heap := m.state.heap.setBlock l (b.overflowed k) },
        stack := .settle t.puts (.answer (.panicked k.overflow)) :: rest } := by
    intro hnot hlt
    exact step_of_panic hcontrol hstack ht (Task.make_of_not_locks hnot hl hb' hlt)
  have hhandles : unitLimit < b.counts.get k → m.step.handles = m.handles := by
    intro hlt
    by_cases hlocks : t.locks
    · exact handles_of_panic hcontrol hstack ht (ht.make_of_locks hlocks hl hb' hlt)
    · have hnot := Bool.eq_false_iff.2 hlocks
      exact handles_of_panic hcontrol hstack ht (Task.make_of_not_locks hnot hl hb' hlt)
  refine ⟨b, hb', obtains_iff hcontrol hstack ht hl hb' hhandles, ?_, hraised, ?_, hhandles, ?_⟩
  · intro hlocks hlt
    exact step_of_panic hcontrol hstack ht (ht.make_of_locks hlocks hl hb' hlt)
  · cases k <;> rfl
  · intro hnot hlt n hn
    refine outlasts_of_leads (hm.leads (leads_step m)) hn ⟨b.overflowed k, ?_, ?_⟩
    · rw [heap_ledger, hraised hnot hlt]
      exact Heap.get?_setBlock_self hb' _
    · simp [Block.overflowed]

/-- So many units of a resource are lent that its strong counter is above the limit, and a clone of
its owner is to be projected. The projection would panic. -/
def crowded : Machine where
  state := (performAll {} [.create "owner" .int ⟨.int 7, rfl⟩ .abort false,
    .leak 1 .strong unitLimit]).state
  stack := [.perform (.projectClone "owner" "part" (some .panic))]

/-- The overflow comes first. Later the owner is dropped and the units that were lent are taken
back, but for the unit that was lost, and for its sake the resource stays. -/
theorem failsSafe_crowded : crowded.Reachable ∧
    (∃ b, crowded.state.heap.blocks.get? 1 = some b ∧ unitLimit < b.counts.strong ∧
      crowded.FailsSafe (.perform (.projectClone "owner" "part" (some .panic))) .strong 1 b []) ∧
    crowded.finish.state.answer = .panicked .strongOverflow ∧
    (crowded.finish.performAll [.drop "owner", .unleak 1 .strong unitLimit]).state.heap.counters =
      [(1, ⟨1, 1⟩)] := by
  have hbefore : (performAll {} [.create "owner" .int ⟨.int 7, rfl⟩ .abort false,
      .leak 1 .strong unitLimit]).Reachable :=
    reachableBy_performAll .refl (Command.allIn_of_forall (fun _ => trivial) _)
  have hreachable : crowded.Reachable := hbefore.tail
    (.command _ (Command.all_of_forall (fun _ => trivial) _) rfl rfl)
  have hty : Projection.target .strong .int .panic = some .int := rfl
  obtain ⟨b, hb, hsafe⟩ := failsSafe_of_reachable hreachable rfl rfl
    (.projectClone (h := ⟨.strong, .int, some ⟨.resource 1, .whole⟩, some 1⟩) rfl rfl hty) rfl
  obtain rfl := Option.some.inj hb
  exact ⟨hreachable, ⟨_, rfl, by decide, hsafe⟩, rfl, rfl⟩

end Machine

end SharedOwnership
