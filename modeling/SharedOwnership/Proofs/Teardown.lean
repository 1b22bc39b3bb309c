import SharedOwnership.Proofs.Teardown.History
import SharedOwnership.Proofs.Teardown.Untouched

/-!
# Every block is torn down once, in two phases

The release action of a block is started by the step that takes its strong counter to zero, and the
block is freed by the step that takes its weak counter to zero, which comes after the release action
has returned. Neither happens twice, and the trace tells of each when it happens. Nothing touches a
block after it was freed. All that holds with release actions that run commands, nested to any
depth, with panics and with allocations that fail.

## Main definitions

* `Machine.Left` — whether nothing can touch a block any more.
* `Machine.Teardown` — what becomes of a block.

## Main results

* `Machine.teardown_of_reachable` — it becomes of every block of every run.
-/

namespace SharedOwnership

namespace Ledger

variable {p : Command → Prop} {L L' : Ledger}

/-- What was told stays told. -/
theorem Step.trace_suffix (h : Step p L L') : L.trace <:+ L'.trace := by
  have hentries : ∀ {M N : Ledger}, Entries p M N → M.trace <:+ N.trace := by
    intro M N hMN
    obtain ⟨es, hes, -⟩ := hMN.keeps.trace
    exact ⟨es, hes.symm⟩
  cases h with
  | entries h => exact hentries h
  | turn M h h' =>
    refine List.IsSuffix.trans ?_ (hentries h')
    cases h with
    | release => exact List.suffix_cons ..
    | finish | abandon => exact List.suffix_rfl
    | free | finishFree => exact (List.suffix_cons ..).trans (List.suffix_cons ..)

end Ledger

namespace Machine

variable {p : Command → Prop} {m n : Machine} {l : Nat} {b : Block}

/-! ### What was started stays started -/

theorem chronicle_of_reachable (hm : m.Reachable) : m.ledger.Chronicle := by
  refine hm.ledger_induction ?_ fun L L' hL hstep hc => hstep.chronicle hL hc
  have hstarted : ∀ l, (({} : Machine).ledger.heap.started l) = false := by
    intro l
    rw [Heap.started_of_get?_eq_none (Table.get?_empty l)]
    simp only [decide_eq_false_iff_not, not_and, Nat.not_lt]
    exact Nat.succ_le_of_lt
  have hfreed : ∀ l, (({} : Machine).ledger.heap.freed l) = false := by
    intro l
    rw [Bool.eq_false_iff]
    intro hfreed
    exact Bool.false_ne_true ((hstarted l).symm.trans (Heap.started_of_freed hfreed))
  refine ⟨fun l => ?_, fun l => ?_, fun l => ?_, fun es es' l layout heq => ?_⟩
  · exact (congrArg Bool.toNat (hstarted l)).symm
  · exact (congrArg Bool.toNat (hfreed l)).symm
  · exact (congrArg Bool.toNat (hfreed l)).symm
  · cases es <;> cases heq

theorem trace_suffix_of_leads (hm : m.Reachable) (h : Leads (fun _ => True) m n) :
    m.state.trace <:+ n.state.trace := by
  induction h with
  | refl => exact List.suffix_rfl
  | @tail k _ hk hmove ih =>
    cases hmove with
    | step =>
      obtain ⟨hL, hobeys⟩ := ReachableBy.sound_obeys (hm.leads hk)
      exact ih.trans (step_ledger hL hobeys).trace_suffix
    | command => exact ih

/-- What the trace tells of once it has happened has happened for good. -/
theorem of_leads {e : Event} {f : Heap → Bool}
    (hf : ∀ k : Machine, k.Reachable → k.state.trace.count e = (f k.state.heap).toNat)
    (hm : m.Reachable) (h : Leads (fun _ => True) m n) (hone : f m.state.heap) :
    f n.state.heap := by
  have hle := (trace_suffix_of_leads hm h).sublist.count_le e
  rw [hf m hm, hf n (hm.leads h), hone] at hle
  cases hn : f n.state.heap with
  | true => rfl
  | false => simp [hn] at hle

theorem started_of_leads (hm : m.Reachable) (h : Leads (fun _ => True) m n)
    (hstarted : m.state.heap.started l) : n.state.heap.started l :=
  of_leads (f := (Heap.started · l)) (fun _ hk => (chronicle_of_reachable hk).releasing l) hm h
    hstarted

theorem freed_of_leads (hm : m.Reachable) (h : Leads (fun _ => True) m n)
    (hfreed : m.state.heap.freed l) : n.state.heap.freed l :=
  of_leads (f := (Heap.freed · l)) (fun _ hk => (chronicle_of_reachable hk).deallocating l) hm h
    hfreed

/-- A release action is started once. -/
theorem Starts.not_starts (hm : m.Reachable) (hs : m.Starts l)
    (h : Leads (fun _ => True) m.step n) : ¬ n.Starts l := by
  obtain ⟨b, b', -, -, hb', hnone⟩ := hs
  rintro ⟨c, c', hc, hsome, -⟩
  have hstarted : m.step.state.heap.started l := by simp [Heap.started_of_get? hb', hnone]
  have hfalse := started_of_leads (hm.leads (leads_step m)) h hstarted
  rw [Heap.started_of_get? hc] at hfalse
  simp [Option.isSome_iff_ne_none.1 hsome] at hfalse

/-- The step that frees a block leaves it freed. -/
theorem Frees.freed (hm : m.Reachable) (hf : m.Frees l) : m.step.state.heap.freed l := by
  obtain ⟨hL, hobeys⟩ := ReachableBy.sound_obeys hm
  obtain ⟨b, hends⟩ := hf.ends hL hobeys
  rw [hends.heap, Heap.freed_erase hends.block, if_pos rfl]

/-- A block is freed once. -/
theorem Frees.not_frees (hm : m.Reachable) (hf : m.Frees l) (h : Leads (fun _ => True) m.step n) :
    ¬ n.Frees l := by
  rintro ⟨c, hc, -⟩
  have hfreed := freed_of_leads (hm.leads (leads_step m)) h (hf.freed hm)
  simp [Heap.freed_of_get? hc] at hfreed

/-! ### What a freed block waited for -/

/-- A block that is freed has no owner left, and its release action has returned. -/
theorem Frees.over (hm : m.Reachable) (hf : m.Frees l) (hb : m.state.heap.blocks.get? l = some b) :
    b.counts.strong = 0 ∧ b.action = none ∧ m.Returned l := by
  obtain ⟨hL, hobeys⟩ := ReachableBy.sound_obeys hm
  obtain ⟨c, hends⟩ := hf.ends hL hobeys
  obtain rfl : b = c := Option.some.inj (hb.symm.trans hends.block)
  have hstrong : b.action = none → b.counts.strong = 0 := by
    intro haction
    have hlive := (hL.accounts l b hb).live
    simp only [haction, Option.isSome_none, Bool.false_eq_true, false_iff] at hlive
    omega
  rcases hends.cause with ⟨h, rest, hstack, hk, hl⟩ | ⟨hcontrol, rest, hstack⟩
  · have hh : h ∈ m.handles := mem_handles_of_stack hstack List.mem_cons_self
    obtain ⟨haction, hnot, hunwound⟩ := hL.of_last_observer hh hk hl hb hends.count
    exact ⟨hstrong haction, haction, (history_of_reachable hm hb haction).ended hnot hunwound⟩
  · have hmem : l ∈ m.ledger.finishing := by
      simp [ledger, State.ledger, hstack, Task.finishing]
    obtain ⟨haction, hcount, -⟩ := hL.of_mem_finishing hmem hb
    obtain ⟨k, d, action, below, hk, hreleases, hleads, above, habove⟩ :=
      (history_of_reachable hm hb haction).running hmem
    refine ⟨hstrong haction, haction, k, m, d, action, below, hk, hreleases, hleads, hcontrol, ?_,
      .refl⟩
    -- the release action is on the stack once, so it has nothing left to do
    rcases above with _ | ⟨t, above⟩
    · exact habove
    · obtain ⟨rfl, -⟩ := List.cons.inj (hstack.symm.trans habove)
      simp [ledger, State.ledger, habove, Task.finishing] at hcount

/-! ### The main result -/

/-- Nothing can touch the block labelled `l` any more: it is gone, no handle leads to it, and its
release action does not run. Whatever stands in its place, the next step does not see it and does
not change it, unless a command asks for the block by its label. -/
structure Left (m : Machine) (l : Nat) : Prop where
  gone : m.state.heap.blocks.get? l = none
  handles : ∀ h ∈ m.handles, h.block ≠ some l
  releasing : ¬ m.Releasing l
  planted : ∀ b, (m.plant l b).state.heap.blocks.get? l = some b
  untouched : (∀ c rest, m.stack = .perform c :: rest → c.label? ≠ some l) →
    ∀ b, (m.plant l b).step = m.step.plant l b

theorem left_of_freed (hm : m.Reachable) (hfreed : m.state.heap.freed l) : m.Left l := by
  have hL : m.ledger.Sound := ReachableBy.sound hm
  obtain ⟨hnone, hpos, hlt⟩ := Heap.freed_iff.1 hfreed
  have hhandles : ∀ h ∈ m.handles, h.block ≠ some l := by
    intro h hh hl
    obtain ⟨b, hb⟩ := hL.exists_block hh hl
    cases hnone.symm.trans hb
  have hreleasing : ¬ m.Releasing l := by
    intro hmem
    obtain ⟨b, hb⟩ := hL.finishing l hmem
    cases hnone.symm.trans hb
  exact ⟨hnone, hhandles, hreleasing, fun b => Table.get?_plant_self hpos hlt,
    fun hc b => step_plant hlt hhandles (mt releasing_iff.2 hreleasing) hc⟩

/-- What becomes of the block labelled `l`. -/
structure Teardown (m : Machine) (l : Nat) : Prop where
  /-- The trace tells of the start of the release action once it is started. -/
  releasing : m.state.trace.count (.releasing l) = (m.state.heap.started l).toNat
  /-- The trace tells of the end of the block, and announces it, once it is freed. -/
  deallocating : m.state.trace.count (.deallocating l) = (m.state.heap.freed l).toNat
  deallocated : m.state.trace.countP (Event.frees l) = (m.state.heap.freed l).toNat
  announced : Event.Announced m.state.trace
  /-- The release action is started when the strong counter goes from one to zero. -/
  starts_iff : m.Starts l ↔ m.state.heap.count .strong l = 1 ∧ m.step.state.heap.count .strong l = 0
  starts : m.Starts l → ∃ b action rest, m.Releases l b action rest
  starts_once : m.Starts l → ∀ n, Leads (fun _ => True) m.step n → ¬ n.Starts l
  /-- The block is freed when the weak counter goes from one to zero. -/
  frees_iff : m.Frees l ↔ m.state.heap.count .weak l = 1 ∧ m.step.state.heap.count .weak l = 0
  frees : m.Frees l → ∃ b, m.Ends l b ∧ b.counts.strong = 0 ∧ b.action = none ∧ m.Returned l
  frees_once : m.Frees l → ∀ n, Leads (fun _ => True) m.step n → ¬ n.Frees l
  /-- Nothing touches the block after it was freed. -/
  left : m.state.heap.freed l → ∀ n, Leads (fun _ => True) m n → n.Left l

theorem starts_iff (hm : m.Reachable) :
    m.Starts l ↔ m.state.heap.count .strong l = 1 ∧ m.step.state.heap.count .strong l = 0 := by
  obtain ⟨hL, hobeys⟩ := ReachableBy.sound_obeys hm
  have hL' : m.step.ledger.Sound := ReachableBy.sound (hm.leads (leads_step m))
  constructor
  · intro hs
    obtain ⟨b, action, rest, hreleases⟩ := hs.releases hL hobeys
    obtain ⟨-, b', -, -, hb', hnone⟩ := hs
    have hlive := (hL'.accounts l b' hb').live
    rw [Heap.count_of_get? .strong hreleases.block, Heap.count_of_get? .strong hb']
    simp only [hnone, Option.isSome_none, Bool.false_eq_true, false_iff] at hlive
    exact ⟨hreleases.count, Nat.eq_zero_of_not_pos hlive⟩
  · rintro ⟨hone, hzero⟩
    have hpos : 0 < m.state.heap.count .strong l := by omega
    obtain ⟨b, hb, hcount⟩ := Heap.exists_of_count_pos hpos
    have hstrong : b.counts.strong = 1 := hcount.symm.trans hone
    have hsome : b.action.isSome := (hL.accounts l b hb).live.2 (by omega)
    cases hb' : m.step.state.heap.blocks.get? l with
    | none =>
      obtain ⟨hover, -⟩ := Frees.over hm ⟨b, hb, hb'⟩ hb
      omega
    | some b' =>
      rw [Heap.count_of_get? .strong hb'] at hzero
      have hlive := (hL'.accounts l b' hb').live
      refine ⟨b, b', hb, hsome, hb', ?_⟩
      cases haction : b'.action with
      | none => rfl
      | some action =>
        have hstrong' : 0 < b'.counts.strong := hlive.1 (by simp [haction])
        exact absurd hzero hstrong'.ne'

theorem frees_iff (hm : m.Reachable) :
    m.Frees l ↔ m.state.heap.count .weak l = 1 ∧ m.step.state.heap.count .weak l = 0 := by
  obtain ⟨hL, hobeys⟩ := ReachableBy.sound_obeys hm
  have hL' : m.step.ledger.Sound := ReachableBy.sound (hm.leads (leads_step m))
  constructor
  · intro hf
    obtain ⟨b, hends⟩ := hf.ends hL hobeys
    obtain ⟨-, -, hnone⟩ := hf
    rw [Heap.count_of_get? .weak hends.block, Heap.count, hnone]
    exact ⟨hends.count, rfl⟩
  · rintro ⟨hone, hzero⟩
    have hpos : 0 < m.state.heap.count .weak l := by omega
    obtain ⟨b, hb, -⟩ := Heap.exists_of_count_pos hpos
    refine ⟨b, hb, Option.eq_none_iff_forall_ne_some.2 fun b' hb' => ?_⟩
    have hweak : 0 < b'.counts.weak := (hL'.accounts l b' hb').weak_pos
    rw [Heap.count_of_get? .weak hb'] at hzero
    exact absurd hzero hweak.ne'

/-- Every block of every run is torn down once, in two phases. -/
theorem teardown_of_reachable (hm : m.Reachable) (l : Nat) : m.Teardown l := by
  obtain ⟨hL, hobeys⟩ := ReachableBy.sound_obeys hm
  obtain ⟨hreleasing, hdeallocating, hdeallocated, hannounced⟩ := chronicle_of_reachable hm
  refine ⟨hreleasing l, hdeallocating l, hdeallocated l, hannounced, starts_iff hm,
    fun hs => hs.releases hL hobeys, fun hs n hn => hs.not_starts hm hn, frees_iff hm,
    fun hf => ?_, fun hf n hn => hf.not_frees hm hn, fun hfreed n hn => ?_⟩
  · obtain ⟨b, hends⟩ := hf.ends hL hobeys
    exact ⟨b, hends, hf.over hm hends.block⟩
  · exact left_of_freed (hm.leads hn) (freed_of_leads hm hn hfreed)

/-- Amid a release action the block is there, and the trace tells of the start. -/
theorem teardown_amidRelease : amidRelease.Reachable ∧
    amidRelease.state.trace.count (.releasing 1) = 1 ∧ amidRelease.Teardown 1 :=
  ⟨reachable_amidRelease, by decide, teardown_of_reachable reachable_amidRelease 1⟩

end Machine

end SharedOwnership
