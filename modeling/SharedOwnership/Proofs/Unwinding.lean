import SharedOwnership.Proofs.Expiry
import SharedOwnership.Proofs.Ownership.Fixpoint
import SharedOwnership.Proofs.Termination

/-!
# A panic in a release action is contained

A panic of a release action unwinds the stack up to the command that catches it. On its way it
leaves release actions, that of the block in which it was raised and those that were waiting for it,
and the blocks of these keep the weak unit that their owners held together for good. Nothing else is
left out: the handles on the way are dropped, so the counters of every other block stay exact, and
the teardowns that had come to an end before stay ended.

## Main definitions

* `Machine.Unwinds` — whether a panic leaves the release action of a block.
* `Machine.Stranded` — what becomes of a block whose release action was unwound.
* `Machine.Completed` — whether a release action was started and has returned.
* `Machine.Containment` — what panics leave behind on the way from one machine to another.

## Main results

* `Machine.exists_caught` — a panic goes on until it is caught.
* `Machine.containment_of_reachable` — all panics are contained.
-/

namespace SharedOwnership

/-! ### Units that no handle holds -/

/-- The units that no handle holds stay in the blocks that stay. -/
def Heap.KeepsUnheld (heap heap' : Heap) : Prop :=
  ∀ l b b', heap.blocks.get? l = some b → heap'.blocks.get? l = some b' →
    b'.lent = b.lent ∧ b'.lost = b.lost

namespace Heap.KeepsUnheld

variable {heap heap' : Heap} {l : Nat} {b b' : Block}

theorem of_blocks (h : heap'.blocks = heap.blocks) : heap.KeepsUnheld heap' := by
  intro l b b' hb hb'
  rw [h] at hb'
  obtain rfl := Option.some.inj (hb.symm.trans hb')
  exact ⟨rfl, rfl⟩

theorem setBlock (hb : heap.blocks.get? l = some b) (hlent : b'.lent = b.lent)
    (hlost : b'.lost = b.lost) : heap.KeepsUnheld (heap.setBlock l b') := by
  intro l' c c' hc hc'
  exact ⟨Heap.eq_of_setBlock Block.lent hb hc hc' hlent,
    Heap.eq_of_setBlock Block.lost hb hc hc' hlost⟩

theorem erase (heap : Heap) (l : Nat) :
    heap.KeepsUnheld { heap with blocks := heap.blocks.erase l } := by
  intro l' c c' hc hc'
  obtain rfl := Heap.eq_of_erase hc hc'
  exact ⟨rfl, rfl⟩

end Heap.KeepsUnheld

namespace Machine

variable {m n k : Machine} {l : Nat} {b b' : Block}

theorem keepsUnheld_advance_settle (s : State) (puts : List (String × Handle)) (pending : Pending)
    (rest : List Task) :
    s.heap.KeepsUnheld (advance s (.settle puts pending) rest).state.heap := by
  cases pending with
  | answer a => rcases puts with _ | ⟨⟨slot, h⟩, puts⟩ <;> exact .of_blocks rfl
  | failed layout onFailure => cases onFailure <;> exact .of_blocks rfl
  | observed =>
    simp only [advance, resolve]
    split
    · exact .of_blocks rfl
    · next slot w puts =>
      have hlock : s.heap.KeepsUnheld (s.heap.lock w).1 := by
        rw [Heap.lock]
        split
        · exact .of_blocks rfl
        · split
          · exact .of_blocks rfl
          · next b hb =>
            split
            · exact .of_blocks rfl
            · next promoted hp =>
              obtain ⟨-, -, rfl⟩ := Block.promote_eq_some.1 hp
              exact .setBlock hb rfl rfl
            · exact .of_blocks rfl
      split <;> next heap _ hmade => rwa [hmade] at hlock

theorem keepsUnheld_giveBack {s : State} {h : Handle} {ts : List Task}
    (hL : (s.ledger (.drop h :: ts)).Sound) : s.heap.KeepsUnheld (s.giveBack h).1.heap := by
  have hgives := State.givesBack hL
  generalize s.giveBack h = next at hgives
  cases hgives with
  | empty hl => exact .of_blocks rfl
  | unit l b hl hb hcount => exact .setBlock hb rfl rfl
  | release l b action hk hl hb hcount haction =>
    rw [State.heap_start]
    exact .setBlock hb rfl rfl
  | free l b hk hl hb hcount => exact .erase _ l

theorem keepsUnheld_giveBackWeak {s : State} {ts : List Task}
    (hL : (s.ledger (.finish l :: ts)).Sound) : s.heap.KeepsUnheld (s.giveBackWeak l).heap := by
  have hends := State.ends hL
  generalize s.giveBackWeak l = next at hends
  cases hends with
  | observed b hb hcount => exact .setBlock hb rfl rfl
  | free b hb hcount => exact .erase _ l

/-- Only commands change the units that no handle holds. -/
theorem keepsUnheld_step (hm : m.Reachable)
    (hcommand : ∀ c rest, m.control = .running → m.stack ≠ .perform c :: rest) :
    m.state.heap.KeepsUnheld m.step.state.heap := by
  have hL : m.ledger.Sound := ReachableBy.sound hm
  obtain ⟨s, control, _ | ⟨t, rest⟩⟩ := m
  · cases control <;> exact .of_blocks rfl
  · cases control with
    | aborted layout => exact .of_blocks rfl
    | running =>
      cases t with
      | perform c => exact absurd rfl (hcommand c rest rfl)
      | drop h => exact keepsUnheld_giveBack hL
      | finish l => exact keepsUnheld_giveBackWeak hL
      | report | throw | resume | join => exact .of_blocks rfl
      | destroy r =>
        refine .of_blocks ?_
        simp only [step, advance, run, State.destroy]
        split
        · rfl
        · split <;> rfl
      | spawn handles => rcases handles with _ | ⟨h, handles⟩ <;> exact .of_blocks rfl
      | settle puts pending => exact keepsUnheld_advance_settle s puts pending rest
    | unwinding e =>
      cases t with
      | drop h => exact keepsUnheld_giveBack hL
      | finish l =>
        obtain ⟨b, hb⟩ := hL.finishing l (State.mem_finishing_finish s l rest)
        have hb' : s.heap.blocks.get? l = some b := hb
        simp only [step, unwind, State.abandon, Heap.modifyBlock_eq_setBlock _ hb']
        exact .setBlock hb' rfl rfl
      | perform | report | destroy | throw | resume | join | settle => exact .of_blocks rfl
      | spawn handles => rcases handles with _ | ⟨h, handles⟩ <;> exact .of_blocks rfl

/-! ### Blocks whose release action was unwound -/

/-- In the next step a panic leaves the release action of the block labelled `l`. -/
def Unwinds (m : Machine) (l : Nat) : Prop :=
  ∃ e rest, m.control = .unwinding e ∧ m.stack = .finish l :: rest

/-- The release action of the block labelled `l` was unwound: the block has no owner, its observers
see that, and the weak unit of the owners stays, so the next step neither releases the block again
nor frees it. -/
structure Stranded (m : Machine) (l : Nat) (b : Block) : Prop where
  block : m.state.heap.blocks.get? l = some b
  unwound : b.unwound = true
  strong : b.counts.strong = 0
  weak : b.counts.weak = holders .weak l m.handles + (b.lent.weak + b.lost.weak) + 1
  expired : m.Expired l
  releasing : ¬ m.Releasing l
  not_starts : ¬ m.Starts l
  not_frees : ¬ m.Frees l

theorem stranded_of_unwound (hm : m.Reachable) (hb : m.state.heap.blocks.get? l = some b)
    (hunwound : b.unwound = true) : m.Stranded l b := by
  have hL : m.ledger.Sound := ReachableBy.sound hm
  have hacc := hL.accounts l b hb
  have hcommon := hacc.common_le
  have hnone : b.action.isSome = false := by
    refine Bool.eq_false_iff.2 fun hsome => ?_
    simp only [Ledger.common, hsome, hunwound, Bool.toNat_true] at hcommon
    omega
  have hstrong : b.counts.strong = 0 :=
    Nat.eq_zero_of_not_pos fun hpos => Bool.false_ne_true (hnone.symm.trans (hacc.live.2 hpos))
  have hstarted : m.state.heap.started l := by
    rw [Heap.started_of_get? hb]
    simpa using hnone
  have hweak := (exact_of_reachable hm hb).weak
  rw [if_pos (.inr (.inr hunwound))] at hweak
  refine ⟨hb, hunwound, hstrong, hweak, expired_of_started hm hstarted, fun hreleasing => ?_,
    ?_, fun hfrees => ?_⟩
  · have hfalse := (hL.of_mem_finishing hreleasing hb).2.2.1
    exact Bool.false_ne_true (hfalse.symm.trans hunwound)
  · rintro ⟨c, c', hc, hsome, -⟩
    obtain rfl := Option.some.inj (hb.symm.trans hc)
    exact Bool.false_ne_true (hnone.symm.trans hsome)
  · exact Bool.false_ne_true ((hfrees.unheld hm hb).2.symm.trans hunwound)

/-- Whether the block labelled `l` is there and its release action was unwound. -/
def Unwound (m : Machine) (l : Nat) : Prop :=
  ∃ b, m.state.heap.blocks.get? l = some b ∧ b.unwound = true

/-- A panic that leaves a release action marks the block. -/
theorem Unwinds.unwound (hm : m.Reachable) (h : m.Unwinds l) : m.step.Unwound l := by
  have hL : m.ledger.Sound := ReachableBy.sound hm
  obtain ⟨e, rest, hcontrol, hstack⟩ := h
  obtain ⟨s, control, stack⟩ := m
  obtain rfl : control = .unwinding e := hcontrol
  obtain rfl : stack = .finish l :: rest := hstack
  obtain ⟨b, hb⟩ := hL.finishing l (State.mem_finishing_finish s l rest)
  have hb' : s.heap.blocks.get? l = some b := hb
  refine ⟨{ b with unwound := true }, ?_, rfl⟩
  simp only [step, unwind, State.abandon, Heap.modifyBlock_eq_setBlock _ hb']
  rw [Heap.get?_setBlock hb', if_pos rfl]

/-- Only such a panic marks a block, and no step takes the mark away. -/
theorem unwound_step_iff (hm : m.Reachable) : m.step.Unwound l ↔ m.Unwound l ∨ m.Unwinds l := by
  obtain ⟨hL, hobeys⟩ := ReachableBy.sound_obeys hm
  constructor
  · rintro ⟨b', hb', hunwound⟩
    cases hb : m.state.heap.blocks.get? l with
    | some b =>
      rcases unwound_step hL hobeys hb hb' with hsame | ⟨⟨e, hcontrol⟩, rest, hstack⟩
      · exact .inl ⟨b, hb, hsame.symm.trans hunwound⟩
      · exact .inr ⟨e, rest, hcontrol, hstack⟩
    | none =>
      -- a block that this very step makes has its release action still
      have hsome := (step_ledger hL hobeys).isSome_action_of_new hb hb'
      have hcommon := ((ReachableBy.sound (hm.leads (leads_step m))).accounts l b' hb').common_le
      simp only [Ledger.common, hsome, hunwound, Bool.toNat_true] at hcommon
      omega
  · rintro (⟨b, hb, hunwound⟩ | hunwinds)
    · have hstranded := stranded_of_unwound hm hb hunwound
      cases hb' : m.step.state.heap.blocks.get? l with
      | none => exact absurd ⟨b, hb, hb'⟩ hstranded.not_frees
      | some b' =>
        rcases unwound_step hL hobeys hb hb' with hsame | ⟨-, rest, hstack⟩
        · exact ⟨b', hb', hsame.trans hunwound⟩
        · exact absurd (releasing_iff.2 (by simp [hstack])) hstranded.releasing
    · exact hunwinds.unwound hm

theorem unwound_of_leads (hm : m.Reachable) (h : Leads (fun _ => True) m n) (hl : m.Unwound l) :
    n.Unwound l := by
  induction h with
  | refl => exact hl
  | @tail j _ hj hmove ih =>
    cases hmove with
    | step => exact (unwound_step_iff (hm.leads hj)).2 (.inl ih)
    | command => exact ih

/-- The marked blocks are those that were marked before and those whose release action a panic has
left since. -/
theorem unwound_iff_of_leads (hm : m.Reachable) (h : Leads (fun _ => True) m n) : n.Unwound l ↔
    m.Unwound l ∨ ∃ k, Leads (fun _ => True) m k ∧ k.Unwinds l ∧
      Leads (fun _ => True) k.step n := by
  constructor
  · intro hn
    induction h with
    | refl => exact .inl hn
    | @tail j i hj hmove ih =>
      have hold : j.Unwound l → m.Unwound l ∨ ∃ k, Leads (fun _ => True) m k ∧ k.Unwinds l ∧
          Leads (fun _ => True) k.step i := by
        intro hunwound
        rcases ih hunwound with hold | ⟨k, hk, hunwinds, hkj⟩
        · exact .inl hold
        · exact .inr ⟨k, hk, hunwinds, hkj.tail hmove⟩
      cases hmove with
      | step =>
        rcases (unwound_step_iff (hm.leads hj)).1 hn with hunwound | hunwinds
        · exact hold hunwound
        · exact .inr ⟨j, hj, hunwinds, .refl⟩
      | command => exact hold hn
  · rintro (hunwound | ⟨k, hk, hunwinds, hkn⟩)
    · exact unwound_of_leads hm h hunwound
    · have hstep : k.step.Reachable := (hm.leads hk).leads (leads_step k)
      exact unwound_of_leads hstep hkn (hunwinds.unwound (hm.leads hk))

/-! ### Teardowns that had come to an end -/

/-- The release action of the block labelled `l` was started and has returned. -/
structure Completed (m : Machine) (l : Nat) : Prop where
  started : m.state.heap.started l
  releasing : ¬ m.Releasing l
  unwound : ¬ m.Unwound l

/-- A release action that has returned does not run again, and no panic leaves it. -/
theorem Completed.step (hm : m.Reachable) (h : m.Completed l) : m.step.Completed l := by
  obtain ⟨hL, hobeys⟩ := ReachableBy.sound_obeys hm
  refine ⟨started_of_leads hm (leads_step m) h.started, fun hreleasing => ?_, fun hunwound => ?_⟩
  · have hstarted := h.started
    cases hb : m.state.heap.blocks.get? l with
    | some b =>
      rw [Heap.started_of_get? hb, Option.isNone_iff_eq_none] at hstarted
      exact h.releasing ((step_ledger hL hobeys).mem_finishing hL hb hstarted hreleasing)
    | none =>
      rw [Heap.started_of_get?_eq_none hb, decide_eq_true_eq] at hstarted
      have hfreed := freed_of_leads hm (leads_step m) (Heap.freed_iff.2 ⟨hb, hstarted⟩)
      exact (left_of_freed (hm.leads (leads_step m)) hfreed).releasing hreleasing
  · rcases (unwound_step_iff hm).1 hunwound with hold | ⟨e, rest, -, hstack⟩
    · exact h.unwound hold
    · exact h.releasing (releasing_iff.2 (by simp [hstack]))

theorem Completed.leads (hm : m.Reachable) (h : m.Completed l) (hn : Leads (fun _ => True) m n) :
    n.Completed l := by
  induction hn with
  | refl => exact h
  | @tail j _ hj hmove ih =>
    cases hmove with
    | step => exact ih.step (hm.leads hj)
    | command => exact ⟨ih.started, by simp [Releasing, Task.finishing], ih.unwound⟩

/-! ### Where a panic is caught -/

/-- A panic is to reach the tasks `base`: it unwinds, or it waits below what is being dropped on its
way. The release actions of `ls` lie between it and `base`, unless they were left. -/
def Passing (base : List Task) (ls : List Nat) (m : Machine) : Prop :=
  ∃ above below, m.stack = above ++ (below ++ base) ∧ (∀ t ∈ below, t.catches = false) ∧
    (above = [] ∧ (∃ e, m.control = .unwinding e) ∨ ∃ e below', below = .resume e :: below') ∧
    ∀ l ∈ ls, .finish l ∈ below ∨ m.Unwound l

variable {base : List Task} {ls : List Nat}

/-- A panic passes the task that it meets, or waits below what that task drops. -/
theorem passing_unwind {s : State} {e : Panic} {t : Task} {below : List Task}
    (hm : (Machine.mk s (.unwinding e) (t :: (below ++ base))).Reachable)
    (hcatches : ∀ t' ∈ t :: below, t'.catches = false)
    (hleft : ∀ l ∈ ls, .finish l ∈ t :: below ∨
      (Machine.mk s (.unwinding e) (t :: (below ++ base))).Unwound l) :
    (unwind s e t (below ++ base)).Passing base ls := by
  have hstep : ∀ l, (Machine.mk s (.unwinding e) (t :: (below ++ base))).Unwound l →
      (unwind s e t (below ++ base)).Unwound l := fun l hl => (unwound_step_iff hm).2 (.inl hl)
  have hbelow : ∀ t' ∈ below, t'.catches = false := fun t' ht' => hcatches t' (.tail _ ht')
  -- what is left of the way, if the task that was met is not the end of a release action
  have hrest : (∀ l, t ≠ .finish l) → ∀ l ∈ ls, .finish l ∈ below ∨
      (unwind s e t (below ++ base)).Unwound l := by
    intro ht l hl
    rcases hleft l hl with hmem | hunwound
    · exact .inl ((List.mem_cons.1 hmem).resolve_left fun heq => ht l heq.symm)
    · exact .inr (hstep l hunwound)
  have hwait : ∀ above : List Task, (∀ l, t ≠ .finish l) →
      (unwind s e t (below ++ base)).stack = above ++ .resume e :: (below ++ base) →
      (unwind s e t (below ++ base)).Passing base ls := by
    refine fun above ht hstack => ⟨above, .resume e :: below, hstack, ?_, .inr ⟨e, below, rfl⟩, ?_⟩
    · exact List.forall_mem_cons.2 ⟨rfl, hbelow⟩
    · exact fun l hl => (hrest ht l hl).imp_left (.tail _)
  cases t with
  | perform | report | destroy | throw | join =>
    exact ⟨[], below, rfl, hbelow, .inl ⟨rfl, e, rfl⟩, hrest (by simp)⟩
  | resume q => exact ⟨[], below, rfl, hbelow, .inl ⟨rfl, q, rfl⟩, hrest (by simp)⟩
  | drop h => exact hwait (s.giveBack h).2 (by simp) rfl
  | spawn handles =>
    rcases handles with _ | ⟨h, handles⟩
    · exact ⟨[], below, rfl, hbelow, .inl ⟨rfl, e, rfl⟩, hrest (by simp)⟩
    · exact hwait [.drop h, .join, .spawn handles] (by simp) rfl
  | settle puts pending => cases hcatches _ List.mem_cons_self
  | finish l' =>
    refine ⟨[], below, rfl, hbelow, .inl ⟨rfl, e, rfl⟩, fun l hl => ?_⟩
    rcases hleft l hl with hmem | hunwound
    · rcases List.mem_cons.1 hmem with heq | hmem
      · obtain rfl : l = l' := Task.finish.inj heq
        exact .inr (Unwinds.unwound hm ⟨e, below ++ base, rfl, rfl⟩)
      · exact .inl hmem
    · exact .inr (hstep l hunwound)

/-- A panic goes on until it is caught, and it leaves all release actions on its way. -/
theorem exists_caught (hm : m.Reachable) (h : m.Passing base ls) :
    ∃ n, Leads (fun _ => True) m n ∧ (n.Aborted ∨
      (∃ e, n.control = .unwinding e) ∧ n.stack = base ∧ ∀ l ∈ ls, n.Unwound l) := by
  induction m using wellFounded_follows.induction with
  | _ m ih =>
    by_cases haborted : m.Aborted
    · exact ⟨m, .refl, .inl haborted⟩
    have hnext : ∀ t rest, m.stack = t :: rest → m.step.Passing base ls →
        ∃ n, Leads (fun _ => True) m n ∧ (n.Aborted ∨
          (∃ e, n.control = .unwinding e) ∧ n.stack = base ∧ ∀ l ∈ ls, n.Unwound l) := by
      intro t rest hstack hpassing
      obtain ⟨n, hn, hresult⟩ := ih m.step ⟨halted_eq_false hstack haborted, rfl⟩
        (hm.leads (leads_step m)) hpassing
      exact ⟨n, (leads_step m).trans hn, hresult⟩
    obtain ⟨above, below, hstack, hcatches, hway, hleft⟩ := h
    rcases above with _ | ⟨t, above⟩
    · rcases below with _ | ⟨t, below⟩
      · obtain ⟨-, hcontrol⟩ : _ ∧ ∃ e, m.control = .unwinding e :=
          hway.resolve_right fun ⟨_, _, hnil⟩ => by cases hnil
        exact ⟨m, .refl, .inr ⟨hcontrol, hstack, fun l hl => (hleft l hl).resolve_left (by simp)⟩⟩
      · refine hnext t (below ++ base) hstack ?_
        obtain ⟨s, control, stack⟩ := m
        obtain rfl : stack = t :: (below ++ base) := hstack
        cases control with
        | aborted layout => exact absurd ⟨layout, rfl⟩ haborted
        | unwinding e => exact passing_unwind hm hcatches hleft
        | running =>
          -- the panic waited for what was dropped above it
          obtain ⟨e, below', hcons⟩ : ∃ e below', t :: below = .resume e :: below' :=
            hway.resolve_left fun ⟨_, e, he⟩ => by cases he
          obtain ⟨rfl, rfl⟩ := List.cons.inj hcons
          refine ⟨[], below, rfl, fun t' ht' => hcatches t' (.tail _ ht'), .inl ⟨rfl, e, rfl⟩, ?_⟩
          intro l hl
          refine (hleft l hl).imp (fun hmem => ?_)
            fun hunwound => (unwound_step_iff hm).2 (.inl hunwound)
          exact (List.mem_cons.1 hmem).resolve_left (by simp)
    · obtain ⟨e, below', rfl⟩ : ∃ e below', below = .resume e :: below' :=
        hway.resolve_left fun ⟨hnil, _⟩ => by cases hnil
      refine hnext t _ hstack ?_
      obtain ⟨new, hnew⟩ := exists_stack_step (hstack : m.stack = t :: (above ++ _)) haborted
      refine ⟨new ++ above, .resume e :: below', hnew.trans (List.append_assoc ..).symm, hcatches,
        .inr ⟨e, below', rfl⟩, fun l hl => ?_⟩
      exact (hleft l hl).imp_right fun hunwound => (unwound_step_iff hm).2 (.inl hunwound)

/-! ### What a panic leaves behind -/

/-- What panics of release actions leave behind on the way from `m` to `n`. -/
structure Containment (m n : Machine) : Prop where
  /-- The release actions that were unwound by then are those that a panic has left. -/
  unwound : ∀ l, n.Unwound l ↔ m.Unwound l ∨
    ∃ k, Leads (fun _ => True) m k ∧ k.Unwinds l ∧ Leads (fun _ => True) k.step n
  /-- Their blocks are neither released again nor freed. -/
  stranded : ∀ l b, n.state.heap.blocks.get? l = some b → b.unwound = true → n.Stranded l b
  /-- The counters of every other block are exact, and it is not forgotten: a handle leads to it, or
  units of it were lent or lost, or its release action is running. -/
  exact : ∀ l b, n.state.heap.blocks.get? l = some b → b.unwound = false →
    n.Exact l b ∧ ((∃ h ∈ n.handles, h.block = some l) ∨ (∃ k, 0 < b.unheld k) ∨ n.Releasing l)
  /-- A panic lends and loses no unit. -/
  unheld : (∀ c rest, n.control = .running → n.stack ≠ .perform c :: rest) →
    n.state.heap.KeepsUnheld n.step.state.heap
  /-- A teardown that had come to an end stays ended. -/
  completed : ∀ l, m.Completed l → n.Completed l ∧ ¬ n.Starts l
  freed : ∀ l, m.state.heap.freed l → n.state.heap.freed l ∧ n.Left l
  /-- A panic goes on to the command that catches it, and it leaves every release action that the
  command has begun and that has not returned. -/
  caught : ∀ e above puts pending rest, n.control = .unwinding e →
    n.stack = above ++ .settle puts pending :: rest → (∀ t ∈ above, t.catches = false) →
    ∃ k, Leads (fun _ => True) n k ∧ (k.Aborted ∨ (∃ e, k.control = .unwinding e) ∧
      k.stack = .settle puts pending :: rest ∧ ∀ l, .finish l ∈ above → k.Unwound l)

/-- A block that was not unwound and whose release action does not run has a handle, or units that
no handle holds. -/
theorem exists_held (hm : m.Reachable) (hb : m.state.heap.blocks.get? l = some b)
    (hunwound : b.unwound = false) :
    (∃ h ∈ m.handles, h.block = some l) ∨ (∃ k, 0 < b.unheld k) ∨ m.Releasing l := by
  have hL : m.ledger.Sound := ReachableBy.sound hm
  have hpos := (hL.accounts l b hb).weak_pos
  obtain ⟨hstrong, hweak, -⟩ := exact_of_reachable hm hb
  have hheld : ∀ k, 0 < holders k l m.handles → ∃ h ∈ m.handles, h.block = some l := by
    intro k hk
    obtain ⟨h, hh, -, hl⟩ := Multiset.countP_pos.1 hk
    exact ⟨h, hh, hl⟩
  by_contra hnone
  simp only [not_or, not_exists, Nat.not_lt, Nat.le_zero] at hnone
  obtain ⟨hhandles, hunheld, hreleasing⟩ := hnone
  have hzero : ∀ k, holders k l m.handles = 0 := fun k => Nat.eq_zero_of_not_pos fun hk => by
    obtain ⟨h, hh, hl⟩ := hheld k hk
    exact hhandles h ⟨hh, hl⟩
  have hunheldStrong : b.lent.strong + b.lost.strong = 0 := hunheld .strong
  have hunheldWeak : b.lent.weak + b.lost.weak = 0 := hunheld .weak
  rw [hzero, hunheldStrong] at hstrong
  simp only [hstrong, hreleasing, hunwound, hzero, hunheldWeak] at hweak
  simp at hweak
  omega

/-- Whatever panics on the way, in release actions nested to any depth, its panics are contained. -/
theorem containment_of_reachable (hm : m.Reachable) (h : Leads (fun _ => True) m n) :
    m.Containment n := by
  have hn : n.Reachable := hm.leads h
  refine ⟨fun l => unwound_iff_of_leads hm h, fun l b => stranded_of_unwound hn,
    fun l b hb hunwound => ⟨exact_of_reachable hn hb, exists_held hn hb hunwound⟩,
    keepsUnheld_step hn, fun l hcompleted => ?_, fun l hfreed => ?_, ?_⟩
  · have hend := hcompleted.leads hm h
    refine ⟨hend, ?_⟩
    rintro ⟨b, -, hb, hsome, -⟩
    have hstarted := hend.started
    rw [Heap.started_of_get? hb, Option.isNone_iff_eq_none] at hstarted
    simp [hstarted] at hsome
  · have hfreed' := freed_of_leads hm h hfreed
    exact ⟨hfreed', left_of_freed hn hfreed'⟩
  · intro e above puts pending rest hcontrol hstack hcatches
    have hpassing : n.Passing (.settle puts pending :: rest) (above.flatMap Task.finishing) := by
      refine ⟨[], above, hstack, hcatches, .inl ⟨rfl, e, hcontrol⟩, fun l hl => ?_⟩
      obtain ⟨t, ht, hlt⟩ := List.mem_flatMap.1 hl
      cases t <;> simp only [Task.finishing, List.mem_singleton, List.not_mem_nil] at hlt
      exact .inl (hlt ▸ ht)
    obtain ⟨k, hk, haborted | ⟨he, hbase, hleft⟩⟩ := exists_caught hn hpassing
    · exact ⟨k, hk, .inl haborted⟩
    · refine ⟨k, hk, .inr ⟨he, hbase, fun l hl => hleft l ?_⟩⟩
      exact List.mem_flatMap.2 ⟨_, hl, List.mem_singleton.2 rfl⟩

/-- A node whose release action makes and drops a value and then panics holds two values, and the
release action of the first of them panics, too. -/
def panicky : Machine :=
  performAll {}
    [.adopt "outer" .node (some ⟨.node 4, rfl⟩) .abort ⟨.none, true, false⟩
        [.create "made" .int ⟨.int 11, rfl⟩ .abort false, .drop "made"],
      .adopt "inner" .int (some ⟨.int 12, rfl⟩) .abort ⟨.none, true, false⟩ [],
      .adopt "calm" .int (some ⟨.int 13, rfl⟩) .abort ⟨.none, false, false⟩ [],
      .downgrade "inner" "observer",
      .link "outer" "inner",
      .link "outer" "calm"]

/-- The panic of the first value leaves two release actions. The second value is released on the
way, and what the release action of the node had made and dropped is gone. -/
theorem containment_panicky : panicky.Reachable ∧ ∃ n, Leads (fun _ => True) panicky n ∧
    n.AtRest ∧ n.state.answer = .panicked .release ∧
    n.state.heap.counters = [(1, ⟨0, 1⟩), (2, ⟨0, 2⟩)] ∧
    (∀ l ∈ [1, 2], ∃ k, Leads (fun _ => True) panicky k ∧ k.Unwinds l ∧
      Leads (fun _ => True) k.step n) ∧
    (∀ l ∈ [3, 4], n.state.heap.freed l) ∧ panicky.Containment n := by
  have hall : ∀ script, Command.AllIn (fun _ => True) script :=
    Command.allIn_of_forall fun _ => trivial
  have hreachable : panicky.Reachable := reachableBy_performAll .refl (hall _)
  have hleads : Leads (fun _ => True) panicky (panicky.performAll [.drop "outer"]) :=
    leads_performAll (hall _)
  have hcontained := containment_of_reachable hreachable hleads
  refine ⟨hreachable, _, hleads, ⟨rfl, rfl⟩, rfl, rfl, fun l hl => ?_, by decide, hcontained⟩
  have hbefore : ∀ l, ¬ panicky.Unwound l := by
    rintro l ⟨b, hb, hunwound⟩
    have hnone : ∀ b ∈ panicky.state.heap.blocks.values, b.unwound = false := by decide
    exact Bool.false_ne_true ((hnone b (Table.mem_values.2 ⟨l, hb⟩)).symm.trans hunwound)
  have hafter : (panicky.performAll [.drop "outer"]).Unwound l := by
    simp only [List.mem_cons, List.not_mem_nil, or_false] at hl
    rcases hl with rfl | rfl <;> exact ⟨_, rfl, rfl⟩
  exact ((hcontained.unwound l).1 hafter).resolve_left (hbefore l)

end Machine

end SharedOwnership
