import Mathlib.Logic.Function.Iterate
import Mathlib.Order.WellFounded
import SharedOwnership.Proofs.Begin
import SharedOwnership.Proofs.Ledger.Step
import SharedOwnership.Proofs.Termination.Lighter

/-!
# Every teardown ends

Every step makes a machine lighter, so no run goes on for ever without a further command, whatever
owns whatever: a resource that owns itself, or a cycle of owners, is not even reached by a drop. And
a command that drops a handle leaves a lighter state behind, although release actions may put new
handles into slots meanwhile; so the slots can be emptied one after the other.

## Main definitions

* `Machine.Follows` — whether a machine is one step after another one.
* `State.Drops` — whether a state is what the drop of an outside handle leaves behind.
* `Machine.AtRest`, `Machine.Aborted` — the two ways for a run to end.
* `Machine.WorksOff` — a run above tasks that wait.

## Main results

* `Machine.wellFounded_follows`, `State.wellFounded_drops` — neither goes on for ever.
* `Machine.ends_of_reachable` — all that is begun comes to an end.
* `Machine.exists_worksOff` — so does what lies above any task.
-/

namespace SharedOwnership

namespace Machine

/-- `n` comes one step after `m`, which had something left to do. -/
def Follows (n m : Machine) : Prop := m.halted = false ∧ n = m.step

/-- No machine takes steps for ever. -/
theorem wellFounded_follows : WellFounded Follows := by
  refine Subrelation.wf (r := InvImage (· < ·) weight) ?_ (InvImage.wf _ Nat.lt_wfRel.wf)
  rintro _ m ⟨hm, rfl⟩
  exact weight_step_lt hm

/-- Nothing is left to do, and no panic unwinds. -/
structure AtRest (m : Machine) : Prop where
  control : m.control = .running
  stack : m.stack = []

/-- The run ended because a control block could not be allocated. -/
def Aborted (m : Machine) : Prop := ∃ layout, m.control = .aborted layout

variable {m n : Machine} {t : Task} {above rest : List Task}

theorem not_aborted_of_running (h : m.control = .running) : ¬ m.Aborted := by
  rintro ⟨layout, hlayout⟩
  cases h.symm.trans hlayout

/-- A run that was aborted stays as it is. -/
theorem step_of_aborted (h : m.Aborted) : m.step = m := by
  obtain ⟨layout, hlayout⟩ := h
  exact step_of_halted (by simp [halted, hlayout])

/-- A machine with tasks goes on unless it was aborted. -/
theorem halted_eq_false (hstack : m.stack = t :: rest) (h : ¬ m.Aborted) : m.halted = false := by
  obtain ⟨s, control, stack⟩ := m
  obtain rfl : stack = t :: rest := hstack
  cases control with
  | running | unwinding => rfl
  | aborted layout => exact absurd ⟨layout, rfl⟩ h

/-! ### Fuel -/

theorem steps_eq_iterate (m : Machine) (fuel : Nat) : m.steps fuel = step^[fuel] m := by
  induction fuel generalizing m with
  | zero => rfl
  | succ fuel ih =>
    rw [steps, Function.iterate_succ_apply, ← ih]
    split
    · next hhalted =>
      rw [step_of_halted hhalted, ih, Function.iterate_fixed (step_of_halted hhalted)]
    · rfl

theorem steps_succ (m : Machine) (fuel : Nat) : m.steps (fuel + 1) = m.step.steps fuel := by
  rw [steps_eq_iterate, steps_eq_iterate, Function.iterate_succ_apply]

theorem weight_step_le (m : Machine) : m.step.weight ≤ m.weight := by
  cases h : m.halted with
  | false => exact Nat.le_of_lt (weight_step_lt h)
  | true => rw [step_of_halted h]

theorem weight_steps_le (m : Machine) (fuel : Nat) : (m.steps fuel).weight ≤ m.weight := by
  induction fuel generalizing m with
  | zero => exact Nat.le_refl _
  | succ fuel ih =>
    rw [steps_succ]
    exact (ih m.step).trans (weight_step_le m)

/-- The weight of a machine is fuel enough to run it until it halts. -/
theorem halted_of_finish (m : Machine) : m.finish.halted :=
  (halted_steps (p := fun _ => True) (fun _ _ h => ⟨trivial, weight_step_lt h⟩) trivial
    (Nat.le_refl _)).1

/-! ### No panic leaves a command -/

/-- A step takes the top of the stack off and may put tasks in its place. -/
theorem exists_stack_step (hstack : m.stack = t :: rest) (h : ¬ m.Aborted) :
    ∃ above, m.step.stack = above ++ rest := by
  obtain ⟨s, control, stack⟩ := m
  obtain rfl : stack = t :: rest := hstack
  cases control with
  | aborted layout => exact absurd ⟨layout, rfl⟩ h
  | running =>
    cases t with
    | perform c => exact ⟨(s.begin c).2, rfl⟩
    | drop g => exact ⟨(s.giveBack g).2, rfl⟩
    | destroy r => exact ⟨(s.destroy r).2, rfl⟩
    | report | finish | throw | resume | join => exact ⟨[], rfl⟩
    | spawn handles =>
      rcases handles with _ | ⟨g, handles⟩
      · exact ⟨[], rfl⟩
      · exact ⟨[.drop g, .join, .spawn handles], rfl⟩
    | settle puts pending =>
      obtain ⟨above, habove, -, -⟩ := stack_advance_settle s puts pending rest
      exact ⟨above, habove⟩
  | unwinding e =>
    cases t with
    | perform | report | finish | destroy | throw | resume | join => exact ⟨[], rfl⟩
    | drop g => exact ⟨(s.giveBack g).2 ++ [.resume e], by simp [step, unwind, run]⟩
    | spawn handles =>
      rcases handles with _ | ⟨g, handles⟩
      · exact ⟨[], rfl⟩
      · exact ⟨[.drop g, .join, .spawn handles, .resume e], rfl⟩
    | settle puts pending => exact ⟨[.settle puts (.answer (.panicked e))], rfl⟩

/-- No panic leaves the stack. -/
structure Enclosed (m : Machine) : Prop where
  last : ∀ t ∈ m.stack.getLast?, t.confines
  unwinding : ∀ e, m.control = .unwinding e → m.stack ≠ []

theorem Enclosed.step (hL : m.ledger.Sound) (hobeys : m.Obeys fun _ => True) (hm : m.Enclosed) :
    m.step.Enclosed := by
  cases hhalted : m.halted with
  | true => rwa [step_of_halted hhalted]
  | false =>
    obtain ⟨t, rest, hstack, hcontrol⟩ := exists_of_not_halted (Bool.eq_false_iff.1 hhalted)
    rcases rest with _ | ⟨t', rest⟩
    · -- the last task: no panic leaves it, and a panic that meets it is caught
      have ht : t.confines := hm.last t (by simp [hstack])
      have hsafe := hobeys.safe
      obtain ⟨s, control, stack⟩ := m
      obtain rfl : stack = [t] := hstack
      cases control with
      | aborted layout => exact absurd rfl (hcontrol layout)
      | unwinding e =>
        have hlost := hsafe.unwinding e rfl t rfl
        cases t with
        | settle =>
          exact ⟨by simp [Machine.step, unwind, Task.confines], fun e' he' => by cases he'⟩
        | perform | report => cases hlost
        | drop | finish | destroy | throw | resume | join | spawn => cases ht
      | running =>
        cases t with
        | perform c =>
          have hbooks : State.Books (fun _ => True) (s.ledger []) [] (s.begin c) :=
            State.books_begin hL (hobeys.stack c (by simp))
          refine ⟨fun t' ht' => hbooks.confined.last t' ?_, fun e' he' => by cases he'⟩
          simpa [Machine.step, advance, run] using ht'
        | report => exact ⟨by simp [Machine.step, advance], fun e' he' => by cases he'⟩
        | settle puts pending =>
          obtain ⟨above, habove, -, hconfined⟩ := stack_advance_settle s puts pending []
          refine ⟨fun t' ht' => hconfined.last t' ?_, fun e' he' => ?_⟩
          · rwa [Machine.step, habove, List.append_nil] at ht'
          · exact absurd he' (control_advance_settle s puts pending [] e')
        | drop | finish | destroy | throw | resume | join | spawn => cases ht
    · have haborted : ¬ m.Aborted := by
        rintro ⟨layout, h⟩
        exact hcontrol layout h
      obtain ⟨above, habove⟩ := exists_stack_step hstack haborted
      refine ⟨fun t'' ht'' => hm.last t'' ?_, fun _ _ => by simp [habove]⟩
      rw [habove, List.getLast?_append_of_ne_nil _ (List.cons_ne_nil _ _)] at ht''
      rwa [hstack, List.getLast?_cons_cons]

theorem enclosed_of_reachable (hm : m.Reachable) : m.Enclosed := by
  induction hm with
  | refl => exact ⟨by simp, fun e he => by cases he⟩
  | @tail n _ hn hmove ih =>
    obtain ⟨hL, hobeys⟩ := ReachableBy.sound_obeys hn
    cases hmove with
    | step => exact ih.step hL hobeys
    | command c hc hcontrol hstack =>
      refine ⟨by simp [Task.confines], fun e he => ?_⟩
      cases hcontrol.symm.trans he

/-- A machine that some run passes through and that has nothing left to do is at rest, unless the
run was aborted. -/
theorem atRest_or_aborted (hm : m.Reachable) (hhalted : m.halted) : m.AtRest ∨ m.Aborted := by
  have henclosed := enclosed_of_reachable hm
  obtain ⟨s, control, stack⟩ := m
  cases control with
  | aborted layout => exact .inr ⟨layout, rfl⟩
  | running => exact .inl ⟨rfl, List.isEmpty_iff.1 hhalted⟩
  | unwinding e => exact absurd (List.isEmpty_iff.1 hhalted) (henclosed.unwinding e rfl)

end Machine

/-! ### Outside handles -/

namespace State

variable {s s' : State} {slot : String} {h : Handle}

/-- `s'` is what is left when some handle in a slot of `s` was dropped, with all that its drop
brought about. -/
def Drops (s' s : State) : Prop :=
  ∃ slot h, s.slots.get? slot = some h ∧ s' = (s.perform (.drop slot)).state

theorem weight_state_le (m : Machine) : m.state.weight ≤ m.weight :=
  (Nat.le_add_right _ _).trans (Nat.le_add_right _ _)

/-- The handle is lighter than its drop, and whatever the drop brings about was paid for. -/
theorem weight_perform_drop_lt (hg : s.slots.get? slot = some h) :
    (s.perform (.drop slot)).state.weight < s.weight := by
  let start : Machine := { state := s, stack := [.perform (.drop slot)] }
  have hbegin := begin_drop hg
  have htwo : start.step.step =
      Machine.run ((s.vacate slot).giveBack h) [.settle [] (.answer .done)] := by
    simp only [start, Machine.step, Machine.advance, Machine.run, hbegin, List.cons_append,
      List.nil_append]
  have hfinish : s.perform (.drop slot) = start.step.step.steps (s.weight + 30) := by
    have hweight : start.weight = s.weight + 30 + 1 + 1 := rfl
    change start.finish = _
    rw [Machine.finish, hweight, Machine.steps_succ, Machine.steps_succ]
  have hvacate := weight_vacate hg
  have hgive := weight_giveBack_le (s.vacate slot) h
  have hrest := Machine.weight_steps_le start.step.step (s.weight + 30)
  have hstate := weight_state_le (start.step.step.steps (s.weight + 30))
  rw [hfinish]
  rw [htwo] at hrest hstate ⊢
  simp only [Machine.run, Machine.weight_running, List.map_append, List.sum_append, List.map_cons,
    List.map_nil, List.sum_cons, List.sum_nil, Task.weight, Pending.weight, List.length_nil,
    handleWeight] at hrest hvacate
  simp only [Machine.run] at hstate ⊢
  omega

/-- Outside handles are not dropped for ever, whichever is dropped next and whatever release actions
put into slots meanwhile. -/
theorem wellFounded_drops : WellFounded Drops := by
  refine Subrelation.wf (r := InvImage (· < ·) weight) ?_ (InvImage.wf _ Nat.lt_wfRel.wf)
  rintro _ s ⟨slot, h, hg, rfl⟩
  exact weight_perform_drop_lt hg

/-- With the weight of a state as fuel, all slots are emptied. -/
theorem slots_closeSlots {fuel : Nat} (hfuel : s.weight ≤ fuel) :
    ((closeSlots fuel s).2.AtRest ∧ (closeSlots fuel s).2.state.slots.entries = []) ∨
      (closeSlots fuel s).2.Aborted := by
  induction fuel generalizing s with
  | zero =>
    have hlength : s.slots.entries.length = 0 := by
      rw [weight_eq, handleWeight] at hfuel
      omega
    exact .inl ⟨⟨rfl, rfl⟩, List.eq_nil_of_length_eq_zero hlength⟩
  | succ fuel ih =>
    rw [closeSlots]
    split
    · next hnil => exact .inl ⟨⟨rfl, rfl⟩, hnil⟩
    · next slot h entries hcons =>
      have hg : s.slots.get? slot = some h := Slots.get?_eq_some.2 (by simp [hcons])
      have hlt := weight_perform_drop_lt hg
      simp only
      split
      · next layout haborted => exact .inr ⟨layout, haborted⟩
      · have hrest := ih (s := (s.perform (.drop slot)).state) (by omega)
        split <;> exact hrest

end State

namespace Machine

variable {m : Machine} {t : Task} {above rest : List Task}

/-! ### What waits -/

/-- A run from one machine to another during which the tasks `rest` wait at the bottom of the stack:
either all that lay above them is done in the end, or the run was aborted. -/
inductive WorksOff (rest : List Task) : Machine → Machine → Prop
  | done {m : Machine} (hstack : m.stack = rest) (hm : ¬ m.Aborted) : WorksOff rest m m
  | aborted {m : Machine} (above : List Task) (hstack : m.stack = above ++ rest)
      (hm : m.Aborted) : WorksOff rest m m
  | step {m n : Machine} (t : Task) (above : List Task) (hstack : m.stack = t :: above ++ rest)
      (hm : ¬ m.Aborted) (hrest : WorksOff rest m.step n) : WorksOff rest m n

/-- Whatever lies above some tasks, it is worked off, or the run is aborted. -/
theorem exists_worksOff (hstack : m.stack = above ++ rest) : ∃ n, WorksOff rest m n := by
  induction m using wellFounded_follows.induction generalizing above with
  | _ m ih =>
    by_cases hm : m.Aborted
    · exact ⟨m, .aborted above hstack hm⟩
    · rcases above with _ | ⟨t, above⟩
      · exact ⟨m, .done hstack hm⟩
      · have hstack' : m.stack = t :: (above ++ rest) := hstack
        obtain ⟨above', hstack'⟩ := exists_stack_step hstack' hm
        rw [← List.append_assoc] at hstack'
        obtain ⟨n, hn⟩ := ih m.step ⟨halted_eq_false hstack hm, rfl⟩ hstack'
        exact ⟨n, .step t above hstack hm hn⟩

theorem WorksOff.leads {n : Machine} (h : WorksOff rest m n) : Leads (fun _ => True) m n := by
  induction h with
  | done | aborted => exact .refl
  | step t above hstack hm hrest ih => exact (leads_step _).trans ih

/-- Unless the run was aborted, what lay above is done. -/
theorem WorksOff.stack_eq {n : Machine} (h : WorksOff rest m n) (hn : ¬ n.Aborted) :
    n.stack = rest := by
  induction h with
  | done hstack => exact hstack
  | aborted above hstack hm => exact absurd hm hn
  | step t above hstack hm hrest ih => exact ih hn

/-- The tasks that wait still do so when the run was aborted. -/
theorem WorksOff.exists_stack_eq {n : Machine} (h : WorksOff rest m n) :
    ∃ above, n.stack = above ++ rest := by
  induction h with
  | done hstack => exact ⟨[], hstack⟩
  | aborted above hstack => exact ⟨above, hstack⟩
  | step t above hstack hm hrest ih => exact ih

/-- What lies above some tasks is worked off, and then those tasks are. -/
theorem WorksOff.trans {n k : Machine} (h : WorksOff (above ++ rest) m n) (h' : WorksOff rest n k) :
    WorksOff rest m k := by
  induction h with
  | done | aborted => exact h'
  | step t above' hstack hm _ ih =>
    refine .step t (above' ++ above) ?_ hm (ih h')
    rw [hstack]
    simp

/-- A run that was aborted above more tasks was aborted above the last of them. -/
theorem WorksOff.of_aborted {n : Machine} (h : WorksOff (above ++ rest) m n) (hn : n.Aborted) :
    WorksOff rest m n := by
  obtain ⟨above', hstack⟩ := h.exists_stack_eq
  rw [← List.append_assoc] at hstack
  exact h.trans (.aborted _ hstack hn)

/-! ### All that is begun comes to an end -/

/-- From every machine that a run passes through, all that is left to do comes to an end, and so
does every command that the machine is given when it is at rest. Outside handles can be dropped one
after the other, in any order, only so often, and in the end none is left. -/
theorem ends_of_reachable (hm : m.Reachable) :
    WellFounded Follows ∧ (m.finish.AtRest ∨ m.finish.Aborted) ∧
      (m.AtRest → ∀ c, (m.state.perform c).AtRest ∨ (m.state.perform c).Aborted) ∧
      WellFounded State.Drops ∧
      (((closeSlots m.state.weight m.state).2.AtRest ∧
          (closeSlots m.state.weight m.state).2.state.slots.entries = []) ∨
        (closeSlots m.state.weight m.state).2.Aborted) := by
  refine ⟨wellFounded_follows, ?_, fun hrest c => ?_, State.wellFounded_drops,
    State.slots_closeSlots (Nat.le_refl _)⟩
  · exact atRest_or_aborted (reachableBy_steps hm _) (halted_of_finish m)
  · have hperformed : (m.state.perform c).Reachable := hm.leads
      (leads_perform (Command.all_of_forall (fun _ => trivial) c) hrest.control hrest.stack)
    exact atRest_or_aborted hperformed (halted_of_finish _)

/-- A node that owns itself, and an owner whose release action makes another such owner. -/
def begetting : List Command :=
  [.adopt "node" .node (some ⟨.node 3, rfl⟩) .abort ⟨.none, true, false⟩ [.slots],
    .clone "node" "self",
    .link "node" "self",
    .adopt "first" .int (some ⟨.int 2, rfl⟩) .abort ⟨.none, false, false⟩
      [.adopt "second" .int (some ⟨.int 3, rfl⟩) .abort ⟨.none, true, false⟩
        [.create "third" .int ⟨.int 4, rfl⟩ .abort false]]]

/-- Each drop of an outside handle leaves another one behind, but for the drop of the last of them
and that of the handle of the node, which still owns itself. -/
theorem ends_begetting : (performAll {} begetting).Reachable ∧
    (closeSlots 3 (performAll {} begetting).state).2.state.slots.names = ["third"] ∧
    (((closeSlots (performAll {} begetting).state.weight (performAll {} begetting).state).2.AtRest ∧
        (closeSlots (performAll {} begetting).state.weight
          (performAll {} begetting).state).2.state.slots.entries = []) ∨
      (closeSlots (performAll {} begetting).state.weight
        (performAll {} begetting).state).2.Aborted) := by
  have hreachable : (performAll {} begetting).Reachable :=
    reachableBy_performAll .refl (Command.allIn_of_forall (fun _ => trivial) _)
  exact ⟨hreachable, rfl, (ends_of_reachable hreachable).2.2.2.2⟩

end Machine

end SharedOwnership
