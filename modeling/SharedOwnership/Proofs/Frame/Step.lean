import SharedOwnership.Proofs.Frame.Effect

/-!
# What a step leaves alone

A step works on one task: it performs a command, drops a handle, ends a release action, drops a
resource, puts a handle back or locks an observer. All that it does not work on is left alone.

## Main definitions

* `Machine.Works` — what a step does with its task.
* `Machine.Performs`, `Machine.Destroys`, `Machine.Touches` — what the next step works on.
* `Machine.Visits` — the machines on the way until some tasks are worked off.

## Main results

* `Machine.exists_works` — every step does one of these things.
* `Machine.Works.slots`, `Machine.Works.blocks`, `Machine.Works.resources` — what it leaves alone.
* `Machine.WorksOff.keeps` — what each step keeps is kept.
-/

namespace SharedOwnership

theorem Task.puts_of_handles {t : Task} (h : t.handles = []) : t.puts = [] := by
  cases t with
  | settle puts pending => exact List.map_eq_nil_iff.1 h
  | _ => rfl

namespace State

variable {s : State} {h : Handle} {l l' : Nat}

/-- When a weak unit of one block is given back, another block stays as it is. -/
theorem get?_giveBackWeak_of_ne (s : State) (hne : l' ≠ l) :
    (s.giveBackWeak l').heap.blocks.get? l = s.heap.blocks.get? l := by
  rw [giveBackWeak]
  split
  · rfl
  · split
    · exact (Table.get?_erase ..).trans (if_neg hne)
    · exact (Table.get?_modify ..).trans (if_neg hne)

theorem get?_giveBackStrong_of_ne (s : State) (hne : l' ≠ l) :
    (s.giveBackStrong l').1.heap.blocks.get? l = s.heap.blocks.get? l ∧
      .finish l ∉ (s.giveBackStrong l').2 := by
  have hremove : (s.heap.removeUnit .strong l').blocks.get? l = s.heap.blocks.get? l :=
    (Table.get?_modify ..).trans (if_neg hne)
  rw [giveBackStrong]
  split
  · exact ⟨rfl, List.not_mem_nil⟩
  · next b _ =>
    simp only
    split
    · split
      · exact ⟨hremove, by simp [hne.symm]⟩
      · next action _ =>
        rw [heap_start]
        refine ⟨(Table.get?_modify ..).trans ((if_neg hne).trans hremove), ?_⟩
        simpa [start, hne.symm] using action.finish_notMem_tasks b.resource l
    · exact ⟨hremove, List.not_mem_nil⟩

/-- When the unit of a handle is given back, the blocks of other handles stay as they are. -/
theorem get?_giveBack (s : State) (hl : h.block ≠ some l) :
    (s.giveBack h).1.heap.blocks.get? l = s.heap.blocks.get? l ∧
      .finish l ∉ (s.giveBack h).2 := by
  rw [giveBack]
  split
  · exact ⟨rfl, List.not_mem_nil⟩
  · next l' hl' =>
    have hne : l' ≠ l := fun heq => hl (heq ▸ hl')
    split
    · exact s.get?_giveBackStrong_of_ne hne
    · exact ⟨s.get?_giveBackWeak_of_ne hne, List.not_mem_nil⟩

/-- When a resource is dropped, drops of the handles that it held are what remains to be done. -/
theorem drop_of_mem_destroy {t : Task} {r : Nat} (ht : t ∈ (s.destroy r).2) : ∃ g, t = .drop g := by
  rw [destroy] at ht
  split at ht
  · cases ht
  · obtain ⟨g, -, rfl⟩ := List.mem_map.1 ht
    exact ⟨g, rfl⟩

end State

namespace Machine

/-! ### One task -/

/-- What a step of the machine `m` does with its task: the state that it leaves, and the tasks that
it puts on the stack. -/
inductive Works (m : Machine) : Task → State → List Task → Prop
  | perform {c : Command} {next : State × List Task} (hcontrol : m.control = .running)
      (heffect : c.Effect m.state next) : Works m (.perform c) next.1 next.2
  /-- A panic waits below what the drop brings about. -/
  | drop (h : Handle) (panic : Option Panic) :
    Works m (.drop h) (m.state.giveBack h).1
      ((m.state.giveBack h).2 ++ panic.toList.map .resume)
  | finish (l : Nat) : Works m (.finish l) (m.state.giveBackWeak l) []
  | abandon (l : Nat) : Works m (.finish l) (m.state.abandon l) []
  | destroy (r : Nat) (hcontrol : m.control = .running) :
    Works m (.destroy r) (m.state.destroy r).1 (m.state.destroy r).2
  | spawn (h : Handle) (hs : List Handle) (panic : Option Panic) :
    Works m (.spawn (h :: hs)) m.state
      ([.drop h, .join, .spawn hs] ++ panic.toList.map .resume)
  /-- A handle goes back into its slot. -/
  | put (slot : String) (h : Handle) (puts : List (String × Handle)) (a : Answer) :
    Works m (.settle ((slot, h) :: puts) (.answer a)) (m.state.put slot h)
      ((m.state.slots.get? slot).toList.map .drop ++ [.settle puts (.answer a)])
  /-- An observer is locked, and an owner that it gives rise to is dropped. -/
  | observe {slot : String} {w : Handle} {puts : List (String × Handle)} {heap : Heap}
      {made : Except Panic Handle} (hlock : m.state.heap.lock w = (heap, made)) (a : Answer) :
    Works m (.settle ((slot, w) :: puts) .observed) { m.state with heap }
      (made.toOption.toList.map .drop ++ [.settle ((slot, w) :: puts) (.answer a)])
  /-- What the end of a command waits for is found out. -/
  | resolve {s : State} (puts : List (String × Handle)) (pending : Pending) (a : Answer)
      (hheap : s.heap = m.state.heap) (hslots : s.slots = m.state.slots) :
    Works m (.settle puts pending) s [.settle puts (.answer a)]
  /-- Nothing is done, but that it may be told or answered. -/
  | skip {s : State} (t : Task) (hheap : s.heap = m.state.heap)
      (hslots : s.slots = m.state.slots) : Works m t s []

variable {m : Machine} {t : Task} {rest : List Task}

theorem works_settle (hcontrol : m.control = .running) {puts : List (String × Handle)}
    {pending : Pending} (hstack : m.stack = .settle puts pending :: rest) :
    ∃ above, m.step.stack = above ++ rest ∧
      m.Works (.settle puts pending) m.step.state above := by
  rw [step_of_running hcontrol hstack]
  cases pending with
  | answer a =>
    rcases puts with _ | ⟨⟨slot, h⟩, puts⟩
    · exact ⟨[], rfl, .skip _ rfl rfl⟩
    · exact ⟨_, by simp [advance, settle], .put slot h puts a⟩
  | failed layout onFailure =>
    cases onFailure <;> exact ⟨_, rfl, .resolve puts _ _ rfl rfl⟩
  | observed =>
    rcases puts with _ | ⟨⟨slot, w⟩, puts⟩
    · exact ⟨_, rfl, .resolve [] _ _ rfl rfl⟩
    · simp only [advance, resolve]
      rcases hlock : m.state.heap.lock w with ⟨heap, e | owner⟩ <;>
        exact ⟨_, rfl, .observe hlock _⟩

/-- Every step takes one task from the stack and does one of these things with it. -/
theorem exists_works (hstack : m.stack = t :: rest) (hm : ¬ m.Aborted) :
    ∃ above, m.step.stack = above ++ rest ∧ m.Works t m.step.state above := by
  cases hcontrol : m.control with
  | aborted layout => exact absurd ⟨layout, hcontrol⟩ hm
  | running =>
    cases t with
    | settle puts pending => exact works_settle hcontrol hstack
    | perform c =>
      rw [step_of_running hcontrol hstack]
      exact ⟨_, rfl, .perform hcontrol (m.state.effect_begin c)⟩
    | drop h =>
      rw [step_of_running hcontrol hstack]
      exact ⟨_, by simp [advance, run], .drop h none⟩
    | finish l =>
      rw [step_of_running hcontrol hstack]
      exact ⟨[], rfl, .finish l⟩
    | destroy r =>
      rw [step_of_running hcontrol hstack]
      exact ⟨_, rfl, .destroy r hcontrol⟩
    | spawn hs =>
      rw [step_of_running hcontrol hstack]
      rcases hs with _ | ⟨h, hs⟩
      · exact ⟨[], rfl, .skip _ rfl rfl⟩
      · exact ⟨_, rfl, .spawn h hs none⟩
    | report | throw | resume | join =>
      rw [step_of_running hcontrol hstack]
      exact ⟨[], rfl, .skip _ rfl rfl⟩
  | unwinding e =>
    have hstep : m.step = unwind m.state e t rest := by rw [step, hcontrol, hstack]
    rw [hstep]
    cases t with
    | drop h => exact ⟨_, by simp [unwind, run], .drop h (some e)⟩
    | finish l => exact ⟨[], rfl, .abandon l⟩
    | spawn hs =>
      rcases hs with _ | ⟨h, hs⟩
      · exact ⟨[], rfl, .skip _ rfl rfl⟩
      · exact ⟨_, rfl, .spawn h hs (some e)⟩
    | settle puts pending => exact ⟨_, rfl, .resolve puts pending _ rfl rfl⟩
    | perform | report | destroy | throw | resume | join => exact ⟨[], rfl, .skip _ rfl rfl⟩

/-! ### What the next step works on -/

/-- The next step performs the command `c`. -/
def Performs (m : Machine) (c : Command) : Prop :=
  m.control = .running ∧ ∃ rest, m.stack = .perform c :: rest

/-- The next step drops the resource labelled `r`. -/
def Destroys (m : Machine) (r : Nat) : Prop :=
  m.control = .running ∧ ∃ rest, m.stack = .destroy r :: rest

/-- The next step works on a handle of the block labelled `l`, or on its units. -/
inductive Touches (m : Machine) (l : Nat) : Prop
  | command {c : Command} (hperforms : m.Performs c) (hreaches : c.Reaches m.state l)
  | drop {h : Handle} {rest : List Task} (hstack : m.stack = .drop h :: rest)
      (hl : h.block = some l)
  | observe {slot : String} {w : Handle} {puts : List (String × Handle)} {rest : List Task}
      (hstack : m.stack = .settle ((slot, w) :: puts) .observed :: rest) (hl : w.block = some l)

namespace Works

variable {s : State} {above : List Task} {x : String} {l r : Nat} {y : Resource}

/-- A slot is left alone unless a command names it, or its handle is put back. -/
theorem slots (h : m.Works t s above) (hstack : m.stack = t :: rest)
    (hputs : x ∉ t.puts.map Prod.fst) (hnot : ∀ c, m.Performs c → x ∉ c.names) :
    s.slots.get? x = m.state.slots.get? x ∧ ∀ t' ∈ above, x ∉ t'.puts.map Prod.fst := by
  have hnone : ∀ {t' : Task}, t'.handles = [] → x ∉ t'.puts.map Prod.fst := by
    intro t' ht'
    rw [Task.puts_of_handles ht']
    exact List.not_mem_nil
  cases h with
  | perform hcontrol heffect => exact heffect.slots (hnot _ ⟨hcontrol, rest, hstack⟩)
  | drop h panic =>
    obtain ⟨hslots, -, htasks⟩ := m.state.giveBack_leaves h
    refine ⟨by rw [hslots], fun t' ht' => hnone ?_⟩
    rcases List.mem_append.1 ht' with ht' | ht'
    · exact List.flatMap_eq_nil_iff.1 htasks t' ht'
    · obtain ⟨e, -, rfl⟩ := List.mem_map.1 ht'
      rfl
  | finish l => exact ⟨by rw [(m.state.giveBackWeak_leaves l).1], by simp⟩
  | abandon l => exact ⟨rfl, by simp⟩
  | destroy r hcontrol =>
    refine ⟨by rw [(m.state.destroy_leaves r).1], fun t' ht' => ?_⟩
    obtain ⟨g, rfl⟩ := State.drop_of_mem_destroy ht'
    exact List.not_mem_nil
  | spawn h hs panic => exact ⟨rfl, by simp [Task.puts]⟩
  | put slot h puts a =>
    simp only [Task.puts, List.map_cons, List.mem_cons, not_or] at hputs
    refine ⟨Slots.get?_put_of_ne _ _ hputs.1, fun t' ht' => ?_⟩
    rcases List.mem_append.1 ht' with ht' | ht'
    · obtain ⟨g, -, rfl⟩ := List.mem_map.1 ht'
      exact List.not_mem_nil
    · rw [List.mem_singleton.1 ht']
      exact hputs.2
  | observe hlock a =>
    refine ⟨rfl, fun t' ht' => ?_⟩
    rcases List.mem_append.1 ht' with ht' | ht'
    · obtain ⟨g, -, rfl⟩ := List.mem_map.1 ht'
      exact List.not_mem_nil
    · rw [List.mem_singleton.1 ht']
      exact hputs
  | resolve puts pending a hheap hslots =>
    rw [hslots]
    exact ⟨rfl, by simpa [Task.puts] using hputs⟩
  | skip t hheap hslots => exact ⟨by rw [hslots], by simp⟩

/-- A block is left alone unless the step works on a handle of it, or ends its release action. -/
theorem blocks (h : m.Works t s above) (hstack : m.stack = t :: rest) (ht : t ≠ .finish l)
    (hnext : ∀ c, m.Performs c → l ≠ m.state.heap.blocks.next) (hnot : ¬ m.Touches l) :
    s.heap.blocks.get? l = m.state.heap.blocks.get? l ∧ .finish l ∉ above := by
  have hfinish : ∀ {hs : List Handle} {ts : List Task}, .finish l ∉ ts →
      .finish l ∉ hs.map .drop ++ ts := by
    intro hs ts hts hmem
    rcases List.mem_append.1 hmem with hmem | hmem
    · obtain ⟨g, -, heq⟩ := List.mem_map.1 hmem
      cases heq
    · exact hts hmem
  cases h with
  | perform hcontrol heffect =>
    have hperforms : m.Performs _ := ⟨hcontrol, rest, hstack⟩
    exact heffect.blocks (fun hreaches => hnot (.command hperforms hreaches)) (hnext _ hperforms)
  | drop h panic =>
    obtain ⟨hget, htasks⟩ := m.state.get?_giveBack fun hl => hnot (.drop hstack hl)
    refine ⟨hget, ?_⟩
    cases panic <;> simpa using htasks
  | finish l' =>
    have hne : l' ≠ l := fun heq => ht (by rw [heq])
    exact ⟨m.state.get?_giveBackWeak_of_ne hne, List.not_mem_nil⟩
  | abandon l' =>
    have hne : l' ≠ l := fun heq => ht (by rw [heq])
    exact ⟨(Table.get?_modify ..).trans (if_neg hne), List.not_mem_nil⟩
  | destroy r hcontrol =>
    rw [(m.state.destroy_leaves r).2.1]
    refine ⟨rfl, fun hmem => ?_⟩
    obtain ⟨g, heq⟩ := State.drop_of_mem_destroy hmem
    cases heq
  | spawn h hs panic => exact ⟨rfl, by cases panic <;> simp⟩
  | put slot h puts a => exact ⟨rfl, hfinish (by simp)⟩
  | @observe slot w puts heap made hlock a =>
    have hget := m.state.heap.get?_lock fun hl => hnot (.observe hstack hl)
    rw [hlock] at hget
    exact ⟨hget, hfinish (by simp)⟩
  | resolve puts pending a hheap hslots => exact ⟨by rw [hheap], by simp⟩
  | skip t hheap hslots => exact ⟨by rw [hheap], List.not_mem_nil⟩

/-- A resource is left alone unless the step drops it, or the command links handles to its node or
takes one from it. -/
theorem resources (h : m.Works t s above) (hstack : m.stack = t :: rest)
    (hy : m.state.heap.resources.get? r = some y) (hnot : ¬ m.Destroys r) :
    ∃ z, s.heap.resources.get? r = some z ∧
      (z = y ∨ ∃ c, m.Performs c ∧ c.Relinks m.state r) ∧
      ∀ h, y.links.count h ≤ z.links.count h ∨ ∃ c, m.Performs c ∧ c.Unlinks m.state r h := by
  have hsame : s.heap.resources.get? r = some y →
      ∃ z, s.heap.resources.get? r = some z ∧
        (z = y ∨ ∃ c, m.Performs c ∧ c.Relinks m.state r) ∧
        ∀ h, y.links.count h ≤ z.links.count h ∨
          ∃ c, m.Performs c ∧ c.Unlinks m.state r h := by
    intro hget
    exact ⟨y, hget, .inl rfl, fun h => .inl le_rfl⟩
  cases h with
  | @perform c next hcontrol heffect =>
    have hperforms : m.Performs c := ⟨hcontrol, rest, hstack⟩
    obtain ⟨z, hz, hrelinks, hlinks⟩ := heffect.resources hy
    exact ⟨z, hz, hrelinks.imp_right fun hr => ⟨c, hperforms, hr⟩,
      fun h => (hlinks h).imp_right fun hu => ⟨c, hperforms, hu⟩⟩
  | drop h panic =>
    refine hsame ?_
    rw [(m.state.giveBack_leaves h).2.1, hy]
  | finish l =>
    refine hsame ?_
    rw [(m.state.giveBackWeak_leaves l).2, hy]
  | destroy r' hcontrol =>
    have hne : r ≠ r' := fun heq => hnot (heq ▸ ⟨hcontrol, rest, hstack⟩)
    exact hsame (((m.state.destroy_leaves r').2.2 r hne).trans hy)
  | @observe slot w puts heap made hlock a =>
    have hresources := m.state.heap.resources_lock w
    rw [hlock] at hresources
    exact hsame (by rw [← hy, ← hresources])
  | resolve puts pending a hheap hslots | skip t hheap hslots => exact hsame (by rw [hheap, hy])
  | abandon | spawn | put => exact hsame hy

end Works

/-! ### Many steps -/

/-- The machine `m` comes to the machine `k`, and something is left to do there above the tasks
`rest`. -/
structure Visits (rest : List Task) (m k : Machine) : Prop where
  comes : ComesTo rest m k
  alive : ¬ k.Aborted
  busy : ∃ t above, k.stack = t :: above ++ rest

theorem ComesTo.leads {k : Machine} (h : ComesTo rest m k) : Leads (fun _ => True) m k := by
  induction h with
  | refl => exact .refl
  | step t above hstack hm h ih => exact (leads_step _).trans ih

/-- While something is left to do, a run that works it off goes on with a step. -/
theorem WorksOff.step_of_busy {n : Machine} (hn : WorksOff rest m n) (above : List Task)
    (hstack : m.stack = t :: above ++ rest) (hm : ¬ m.Aborted) : WorksOff rest m.step n := by
  cases hn with
  | done hstack' =>
    have hlength := congrArg List.length (hstack.symm.trans hstack')
    simp at hlength
    omega
  | aborted above' hstack' haborted => exact absurd haborted hm
  | step t' above' hstack' hm' hrest => exact hrest

/-- Every machine on the way comes to the same end. -/
theorem WorksOff.of_comesTo {n k : Machine} (hn : WorksOff rest m n) (hk : ComesTo rest m k) :
    WorksOff rest k n := by
  induction hk with
  | refl => exact hn
  | step t above hstack hm hk ih => exact ih (hn.step_of_busy above hstack hm)

theorem Visits.leads {n k : Machine} (hk : Visits rest m k) (hn : WorksOff rest m n) :
    Leads (fun _ => True) k.step n := by
  obtain ⟨t, above, hstack⟩ := hk.busy
  exact ((hn.of_comesTo hk.comes).step_of_busy above hstack hk.alive).leads

theorem ComesTo.exists_steps {k : Machine} (h : ComesTo rest m k) : ∃ i, k = m.steps i := by
  induction h with
  | refl => exact ⟨0, rfl⟩
  | step t above hstack hm h ih =>
    obtain ⟨i, rfl⟩ := ih
    exact ⟨i + 1, (steps_succ _ i).symm⟩

/-- The machines on the way to one that has halted come before it. -/
theorem Visits.exists_lt {k : Machine} (hk : Visits rest m k) {i : Nat} (hi : (m.steps i).halted) :
    ∃ j < i, k = m.steps j := by
  obtain ⟨j, rfl⟩ := hk.comes.exists_steps
  refine ⟨j, ?_, rfl⟩
  by_contra hle
  obtain ⟨d, rfl⟩ := Nat.exists_eq_add_of_le' (Nat.le_of_not_lt hle)
  obtain ⟨t, above, hstack⟩ := hk.busy
  have hbusy := halted_eq_false hstack hk.alive
  rw [steps_eq_iterate] at hi hbusy
  rw [Function.iterate_add_apply, Function.iterate_fixed (step_of_halted hi), hi] at hbusy
  cases hbusy

theorem worksOff_of_halted (hm : m.halted) : WorksOff [] m m := by
  by_cases haborted : m.Aborted
  · exact .aborted m.stack (List.append_nil _).symm haborted
  · cases hstack : m.stack with
    | nil => exact .done hstack haborted
    | cons t rest =>
      rw [halted_eq_false hstack haborted] at hm
      cases hm

/-- A machine that has halted has worked everything off. -/
theorem worksOff_steps {i : Nat} (hi : (m.steps i).halted) : WorksOff [] m (m.steps i) := by
  induction i generalizing m with
  | zero => exact worksOff_of_halted hi
  | succ i ih =>
    rw [steps] at hi ⊢
    split at hi
    · next hhalted =>
      rw [if_pos hhalted]
      exact worksOff_of_halted hhalted
    · next hbusy =>
      obtain ⟨t, rest, hstack, hcontrol⟩ := exists_of_not_halted hbusy
      rw [if_neg hbusy]
      refine .step t rest (hstack.trans (List.append_nil _).symm) ?_ (ih hi)
      rintro ⟨layout, haborted⟩
      exact hcontrol layout haborted

/-- What each step keeps, of the machine and of the tasks above `rest`, is kept until these are
worked off. -/
theorem WorksOff.keeps {n : Machine} {above : List Task} {Q : Machine → List Task → Prop}
    (h : WorksOff rest m n) (hstack : m.stack = above ++ rest) (hQ : Q m above)
    (hstep : ∀ k t above, Visits rest m k → k.stack = t :: above ++ rest → Q k (t :: above) →
      ∀ new, k.Works t k.step.state new → Q k.step (new ++ above)) : ∃ above, Q n above := by
  induction h generalizing above with
  | done | aborted => exact ⟨above, hQ⟩
  | @step m n t above' hstack' hm hrest ih =>
    obtain rfl : above = t :: above' := List.append_cancel_right (hstack.symm.trans hstack')
    have htask : m.stack = t :: (above' ++ rest) := hstack
    obtain ⟨new, hnew, hworks⟩ := exists_works htask hm
    have hvisits : Visits rest m m := ⟨.refl m, hm, t, above', hstack⟩
    have hnext := hstep m t above' hvisits hstack hQ new hworks
    refine ih (hnew.trans (List.append_assoc ..).symm) hnext ?_
    intro k t' above hk
    exact hstep k t' above ⟨.step t above' hstack hm hk.comes, hk.alive, hk.busy⟩

/-- So is what each step of a command keeps. -/
theorem WorksOff.keeps_of_perform {n : Machine} {c : Command} {Q : Machine → List Task → Prop}
    (h : WorksOff rest m n) (hstack : m.stack = .perform c :: rest) (hQ : Q m [.perform c])
    (hstep : ∀ k t above, Visits rest m k → k.stack = t :: above ++ rest → Q k (t :: above) →
      ∀ new, k.Works t k.step.state new → Q k.step (new ++ above)) :
    ∃ above, Q n above := by
  have hstack' : m.stack = [.perform c] ++ rest := hstack
  exact h.keeps hstack' hQ hstep

end Machine

end SharedOwnership
