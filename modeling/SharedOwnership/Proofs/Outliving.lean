import SharedOwnership.Proofs.Erasure
import SharedOwnership.Proofs.Unwinding

/-!
# A block outlives its release action

The weak unit that the owners of a block hold together keeps the block allocated while its release
action runs, whatever that action does to the observers: it may drop those that there were, and make
new ones. So what decides when the block is freed is which observers there are when the action has
returned. If there is none, the block goes at once; otherwise it goes with the last of them.

## Main definitions

* `Machine.Unobserved` — whether a block has no weak unit but that of its owners.
* `Machine.DropsLast` — whether a step drops the last observer of a block.
* `Machine.Outlives` — what becomes of a block whose last owner is gone.

## Main results

* `Machine.outlives_of_reachable` — it becomes of every such block of every run.
-/

namespace SharedOwnership

namespace Machine

variable {m n k : Machine} {l : Nat} {b : Block} {rest : List Task}

/-- The block labelled `l` is there and has no observer, and no weak unit of it is without a
handle. -/
def Unobserved (m : Machine) (l : Nat) : Prop :=
  ∃ b, m.state.heap.blocks.get? l = some b ∧
    (∀ h ∈ m.handles, h.kind = .weak → h.block ≠ some l) ∧ b.unheld .weak = 0

/-- The next step drops an observer of the block labelled `l`, there is no other one, and no weak
unit of the block is without a handle. -/
def DropsLast (m : Machine) (l : Nat) : Prop :=
  ∃ b h rest, m.state.heap.blocks.get? l = some b ∧ ¬ m.Aborted ∧ m.stack = .drop h :: rest ∧
    h.kind = .weak ∧ h.block = some l ∧ holders .weak l m.handles = 1 ∧ b.unheld .weak = 0

/-- The release action of the block labelled `l` has returned to what waited below it: the next step
gives back the weak unit that the owners held together. -/
def Returns (m : Machine) (l : Nat) (rest : List Task) : Prop :=
  m.control = .running ∧ m.stack = .finish l :: rest

theorem Returns.releasing (h : m.Returns l rest) : m.Releasing l :=
  releasing_iff.2 (by simp [h.2])

theorem holders_eq_zero {hs : Multiset Handle} :
    holders .weak l hs = 0 ↔ ∀ h ∈ hs, h.kind = .weak → h.block ≠ some l := by
  simp only [holders, Multiset.countP_eq_zero, not_and, ne_eq]

/-! ### While the release action runs -/

/-- While its release action runs, a block is there without a strong unit, and the owners still hold
a weak one. -/
theorem counts_of_releasing (hm : m.Reachable) (h : m.Releasing l) :
    ∃ b, m.state.heap.blocks.get? l = some b ∧ b.counts.strong = 0 ∧
      b.counts.weak = holders .weak l m.handles + b.unheld .weak + 1 := by
  have hL : m.ledger.Sound := ReachableBy.sound hm
  obtain ⟨b, hb⟩ := hL.finishing l h
  have hb' : m.state.heap.blocks.get? l = some b := hb
  obtain ⟨-, -, -, hstrong⟩ := hL.of_mem_finishing h hb
  have hweak := (exact_of_reachable hm hb').weak
  rw [if_pos (.inr (.inl h))] at hweak
  exact ⟨b, hb', hstrong, hweak⟩

/-! ### When the release action has returned -/

theorem get?_giveBackWeak {s : State} (hb : s.heap.blocks.get? l = some b) :
    (s.giveBackWeak l).heap.blocks.get? l =
      if b.counts.weak = 1 then none else some (b.removeUnit .weak) := by
  split
  · next hone => simp [State.giveBackWeak_last hb hone, Table.get?_erase]
  · next hne =>
    rw [State.giveBackWeak_more hb hne]
    exact Heap.get?_setBlock_self hb _

theorem Returns.step_eq (h : m.Returns l rest) :
    m.step = { state := m.state.giveBackWeak l, stack := rest } := by
  rw [step_of_running h.1 h.2]
  rfl

/-- The block goes at once just if it has no observer then. -/
theorem Returns.frees_iff (hm : m.Reachable) (h : m.Returns l rest) :
    m.Frees l ↔ m.Unobserved l := by
  obtain ⟨b, hb, -, hweak⟩ := counts_of_releasing hm h.releasing
  have hafter : m.step.state.heap.blocks.get? l =
      if b.counts.weak = 1 then none else some (b.removeUnit .weak) := by
    rw [h.step_eq]
    exact get?_giveBackWeak hb
  constructor
  · rintro ⟨-, -, hnone⟩
    have hone : b.counts.weak = 1 := by
      by_contra hne
      simp [hafter, hne] at hnone
    exact ⟨b, hb, holders_eq_zero.1 (by omega), by omega⟩
  · rintro ⟨c, hc, hobservers, hunheld⟩
    obtain rfl : b = c := Option.some.inj (hb.symm.trans hc)
    have hzero := holders_eq_zero.2 hobservers
    refine ⟨b, hb, ?_⟩
    rw [hafter, if_pos (by omega)]

/-- The release action has come to its end without a panic. -/
theorem Returns.completed (hm : m.Reachable) (h : m.Returns l rest) : m.step.Completed l := by
  have hL : m.ledger.Sound := ReachableBy.sound hm
  obtain ⟨b, hb⟩ := hL.finishing l h.releasing
  have hb' : m.state.heap.blocks.get? l = some b := hb
  obtain ⟨haction, hcount, hunwound, -⟩ := hL.of_mem_finishing h.releasing hb
  constructor
  · apply started_of_leads hm (leads_step m)
    rw [Heap.started_of_get? hb', haction]
    rfl
  · -- what waited for the end of the action did so once
    intro hreleasing
    have hrest : l ∉ rest.flatMap Task.finishing := by
      rw [← List.count_eq_zero]
      simpa [ledger, State.ledger, h.2, Task.finishing] using hcount
    rw [Releasing, h.step_eq] at hreleasing
    exact hrest hreleasing
  · intro hunwound'
    rcases (unwound_step_iff hm).1 hunwound' with ⟨c, hc, hmarked⟩ | ⟨e, _, hcontrol, -⟩
    · obtain rfl : b = c := Option.some.inj (hb'.symm.trans hc)
      exact Bool.false_ne_true (hunwound.symm.trans hmarked)
    · cases h.1.symm.trans hcontrol

/-! ### When the last observer goes -/

/-- Once the release action has returned, what is left are the units of the observers, and those
without a handle. -/
theorem Completed.counts (hm : m.Reachable) (h : m.Completed l)
    (hb : m.state.heap.blocks.get? l = some b) : b.counts.strong = 0 ∧
      b.counts.weak = holders .weak l m.handles + b.unheld .weak := by
  have hstrong : b.counts.strong = 0 := by
    have hzero := (expired_of_started hm h.started).count
    rwa [Heap.count_of_get? .strong hb] at hzero
  have hunwound : ¬ b.unwound = true := fun hmarked => h.unwound ⟨b, hb, hmarked⟩
  have hweak := (exact_of_reachable hm hb).weak
  have hnone : ¬ (0 < b.counts.strong ∨ m.Releasing l ∨ b.unwound = true) := by
    rintro (hpos | hreleasing | hmarked)
    · omega
    · exact h.releasing hreleasing
    · exact hunwound hmarked
  rw [if_neg hnone] at hweak
  exact ⟨hstrong, hweak⟩

/-- Then the block goes with its last observer. -/
theorem Completed.frees_iff (hm : m.Reachable) (h : m.Completed l) :
    m.Frees l ↔ m.DropsLast l := by
  obtain ⟨hL, hobeys⟩ := ReachableBy.sound_obeys hm
  constructor
  · intro hf
    obtain ⟨b, hends⟩ := hf.ends hL hobeys
    have hweak := (h.counts hm hends.block).2
    have hone := hends.count
    have haborted : ¬ m.Aborted := by
      intro haborted
      obtain ⟨c, hc, hnone⟩ := hf
      rw [step_of_aborted haborted] at hnone
      cases hnone.symm.trans hc
    rcases hends.cause with ⟨g, rest, hstack, hk, hl⟩ | ⟨-, rest, hstack⟩
    · have hg : g ∈ m.handles := mem_handles_of_stack hstack List.mem_cons_self
      have hpos := holders_pos hg hk hl
      exact ⟨b, g, rest, hends.block, haborted, hstack, hk, hl, by omega, by omega⟩
    · exact absurd (releasing_iff.2 (by simp [hstack])) h.releasing
  · rintro ⟨b, g, rest, hb, haborted, hstack, hk, hl, hone, hunheld⟩
    have hweak := (h.counts hm hb).2
    have hgiven : m.step.state = m.state.giveBackWeak l := by
      have hback : m.state.giveBack g = (m.state.giveBackWeak l, []) := by
        simp only [State.giveBack, hl, hk]
      obtain ⟨s, control, stack⟩ := m
      obtain rfl : stack = .drop g :: rest := hstack
      cases control with
      | running | unwinding => exact congrArg Prod.fst hback
      | aborted layout => exact absurd ⟨layout, rfl⟩ haborted
    refine ⟨b, hb, ?_⟩
    rw [hgiven, get?_giveBackWeak hb, if_pos (by omega)]

/-! ### The main result -/

/-- What becomes of the block labelled `l`, whose last strong unit goes in the next step, above the
tasks `rest`. -/
structure Outlives (m : Machine) (l : Nat) (rest : List Task) : Prop where
  /-- The release action comes to an end, unless the run is aborted: it returns, or it unwinds. -/
  ends : ∃ n, WorksOff (.finish l :: rest) m.step n
  /-- Whatever it does, the block stays allocated meanwhile. -/
  during : ∀ n, Leads (fun _ => True) m.step n → n.Releasing l →
    ∃ b, n.state.heap.blocks.get? l = some b ∧ b.counts.strong = 0 ∧ 1 ≤ b.counts.weak
  /-- When it has returned, the block is freed before anything else is done, if it has no observer
  then. -/
  returned : ∀ n, Leads (fun _ => True) m.step n → n.Returns l rest →
    n.step.stack = rest ∧ (n.Frees l ↔ n.Unobserved l)
  /-- Otherwise the block stays, and it goes with its last observer. -/
  observed : ∀ n, Leads (fun _ => True) m.step n → n.Returns l rest →
    ∀ k, Leads (fun _ => True) n.step k → (k.Frees l ↔ k.DropsLast l) ∧
      ∀ b, k.state.heap.blocks.get? l = some b → b.counts.strong = 0 ∧
        b.counts.weak = holders .weak l k.handles + b.unheld .weak
  /-- There is no second release. -/
  once : ∀ k, Leads (fun _ => True) m.step k →
    ¬ k.Starts l ∧ k.state.trace.count (.releasing l) = 1

/-- Every block outlives its release action, whatever that does, and goes as soon as it has no
observer any more. -/
theorem outlives_of_reachable (hm : m.Reachable) (hs : m.Starts l) :
    (∃ b action rest, m.Releases l b action rest) ∧
      ∀ b action rest, m.Releases l b action rest → m.Outlives l rest := by
  obtain ⟨hL, hobeys⟩ := ReachableBy.sound_obeys hm
  have hstep : m.step.Reachable := hm.leads (leads_step m)
  refine ⟨hs.releases hL hobeys, ?_⟩
  intro b action rest hreleases
  refine ⟨exists_worksOff hreleases.stack, ?_, ?_, ?_, ?_⟩
  · intro n hn hreleasing
    obtain ⟨c, hc, hstrong, hweak⟩ := counts_of_releasing (hstep.leads hn) hreleasing
    exact ⟨c, hc, hstrong, by omega⟩
  · intro n hn hreturns
    constructor
    · rw [hreturns.step_eq]
    · exact hreturns.frees_iff (hstep.leads hn)
  · intro n hn hreturns k hk
    have hn' : n.Reachable := hstep.leads hn
    have hk' : k.Reachable := (hn'.leads (leads_step n)).leads hk
    have hcompleted : k.Completed l :=
      (hreturns.completed hn').leads (hn'.leads (leads_step n)) hk
    exact ⟨hcompleted.frees_iff hk', fun c hc => hcompleted.counts hk' hc⟩
  · intro k hk
    have hstarted : m.step.state.heap.started l := by
      rw [Heap.started_of_get? (b := { b.removeUnit .strong with action := none })]
      · rfl
      · rw [hreleases.heap]
        exact Heap.get?_setBlock_self hreleases.block _
    refine ⟨hs.not_starts hm hk, ?_⟩
    have htold := (chronicle_of_reachable (hstep.leads hk)).releasing l
    rwa [heap_ledger, started_of_leads hstep hk hstarted] at htold

/-- The release action of the record drops the observer that there was and leaves a clone of it. So
the block stays when the action has returned, and it goes with the clone. -/
theorem outlives_lastOwner : lastOwner.Reachable ∧ lastOwner.Starts 1 ∧
    ∃ rest n, lastOwner.Outlives 1 rest ∧ Leads (fun _ => True) lastOwner.step n ∧
      n.Returns 1 rest ∧ ¬ n.Frees 1 ∧ Leads (fun _ => True) n.step lastObserver ∧
      lastObserver.DropsLast 1 := by
  have hreachable : lastOwner.Reachable :=
    (reachable_unmade.leads (leads_step unmade)).leads leads_lastOwner
  have hstarts : lastOwner.Starts 1 := ⟨_, _, rfl, rfl, rfl, rfl⟩
  have hreleases : ∃ b action, lastOwner.Releases 1 b action [.settle [] (.answer .done)] :=
    ⟨_, _, rfl, rfl, rfl, rfl, rfl, .inr ⟨_, _, rfl⟩⟩
  obtain ⟨b, action, hreleases⟩ := hreleases
  have houtlives := (outlives_of_reachable hreachable hstarts).2 b action _ hreleases
  let n : Machine := lastOwner.step.steps 8
  have hreturns : n.Returns 1 [.settle [] (.answer .done)] := ⟨rfl, rfl⟩
  have hn : Leads (fun _ => True) lastOwner.step n := leads_steps _ 8
  have hended : Leads (fun _ => True) n.step (amidRelease.steps 20) := by
    -- both have halted by then, so the number of steps does not matter
    have hhalted : (amidRelease.steps 20).halted := rfl
    have hsame : n.step.steps 20 = amidRelease.steps 20 := by
      rw [amidRelease_eq_steps] at hhalted ⊢
      simp only [n, steps_eq_iterate, ← Function.iterate_succ_apply,
        ← Function.iterate_succ_apply', ← Function.iterate_add_apply] at hhalted ⊢
      have hstays := Function.iterate_fixed (step_of_halted hhalted) 8
      rwa [← Function.iterate_add_apply] at hstays
    exact hsame ▸ leads_steps n.step 20
  have hlast : Leads (fun _ => True) n.step lastObserver :=
    (hended.tail (.command (.drop "other") trivial rfl rfl)).trans (leads_step _)
  have hfrees : ¬ n.Frees 1 := by
    rintro ⟨_, -, hnone⟩
    cases hnone
  have hdrops := ((houtlives.observed n hn hreturns lastObserver hlast).1).1 ⟨_, rfl, rfl⟩
  exact ⟨hreachable, hstarts, _, n, houtlives, hn, hreturns, hfrees, hlast, hdrops⟩

end Machine

end SharedOwnership
