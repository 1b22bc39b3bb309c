import Mathlib.Algebra.BigOperators.Group.List.Basic
import Mathlib.Algebra.GroupWithZero.Nat
import SharedOwnership.Machine.Weight

/-!
# Teardowns get lighter

What a teardown puts on the stack weighs no more than what it takes out of the heap: a release
action that is started takes its own weight from its block, and the drops of the handles that a
resource held take theirs from the resource. So the weight of a machine is fuel enough to work off
its stack.

## Main results

* `State.weight_giveBack_le`, `State.weight_destroy_le` — what is put on the stack is paid for.
* `Machine.halted_finish` — a machine that gets lighter with every step comes to a halt.
-/

namespace SharedOwnership

namespace Table

variable {α : Type} {t : Table α} {l : Nat} {a : α}

/-- A table weighs as much as its values. -/
theorem weight_eq_sum (w : α → Nat) (t : Table α) : t.weight w = (t.values.map w).sum := by
  obtain ⟨entries⟩ := t
  simp only [weight, values]
  induction entries with
  | nil => rfl
  | cons a? entries ih => cases a? <;> simp_all

theorem weight_of_get? (w : α → Nat) (h : t.get? l = some a) :
    t.weight w = w a + (t.erase l).weight w := by
  rw [weight_eq_sum, weight_eq_sum, ((perm_values h).map w).sum_eq, List.map_cons, List.sum_cons]

theorem weight_modify (w : α → Nat) (h : t.get? l = some a) (f : α → α) :
    (t.modify l f).weight w = w (f a) + (t.erase l).weight w := by
  have hf : (t.modify l f).get? l = some (f a) := by
    rw [get?_modify, if_pos rfl, h, Option.map_some]
  rw [weight_of_get? w hf, erase_modify]

end Table

/-! ### Release actions -/

/-- The reports count with the commands of a script. -/
theorem Command.sum_weight_script (script : List Command) :
    ((script.flatMap fun c => [Task.perform c, .report]).map Task.weight).sum =
      scriptWeight script := by
  induction script with
  | nil => rfl
  | cons c script ih =>
    simp only [List.flatMap_cons, List.map_append, List.sum_append, ih, scriptWeight]
    simp [Task.weight]

/-- A release action weighs more than what it does. -/
theorem ReleaseAction.sum_weight_tasks_lt (action : ReleaseAction) (resource : Option Nat) :
    ((action.tasks resource).map Task.weight).sum < action.weight := by
  have hdestroy : ((resource.toList.map Task.destroy).map Task.weight).sum ≤ 1 := by
    cases resource <;> simp [Task.weight]
  cases action with
  | discard => exact Nat.lt_succ_of_le hdestroy
  | scripted number ty script panics =>
    have hthrow : ((if panics then [Task.throw .release] else []).map Task.weight).sum ≤ 2 := by
      cases panics <;> simp [Task.weight]
    simp only [tasks, weight, List.map_append, List.sum_append, Command.sum_weight_script]
    omega

/-! ### Teardown -/

namespace State

variable {s : State} {l : Nat} {b : Block}

/-- A state in which a block takes the place of another one. -/
theorem weight_setBlock (hb : s.heap.blocks.get? l = some b) (b' : Block) :
    ({ s with heap := s.heap.setBlock l b' } : State).weight + b.weight = s.weight + b'.weight := by
  simp only [weight, Heap.setBlock, Heap.modifyBlock, Table.weight_modify Block.weight hb,
    Table.weight_of_get? Block.weight hb]
  omega

@[simp] theorem weight_record (s : State) (e : Event) : (s.record e).weight = s.weight := rfl

@[simp] theorem weight_start (s : State) (action : ReleaseAction) (resource : Option Nat) :
    (s.start action resource).1.weight = s.weight := by cases action <;> rfl

theorem weight_giveBackWeak_le (s : State) (l : Nat) : (s.giveBackWeak l).weight ≤ s.weight := by
  cases hb : s.heap.blocks.get? l with
  | none => simp [giveBackWeak, hb]
  | some b =>
    by_cases hone : b.counts.weak = 1
    · rw [giveBackWeak_last hb hone]
      simp only [weight, Table.weight_of_get? Block.weight hb]
      omega
    · rw [giveBackWeak_more hb hone]
      have hset := weight_setBlock hb (b.removeUnit .weak)
      have hsame : (b.removeUnit .weak).weight = b.weight := rfl
      omega

/-- What is put on the stack when a strong unit is given back is paid for, but for the end of a
release action that was started before. -/
theorem weight_giveBackStrong_le (s : State) (l : Nat) :
    (s.giveBackStrong l).1.weight + ((s.giveBackStrong l).2.map Task.weight).sum ≤
      s.weight + 1 := by
  cases hb : s.heap.blocks.get? l with
  | none => simp [giveBackStrong, hb]
  | some b =>
    have hsame : (b.removeUnit .strong).weight = b.weight := rfl
    by_cases hone : b.counts.strong = 1
    · cases haction : b.action with
      | none =>
        have hset := weight_setBlock hb (b.removeUnit .strong)
        simp only [giveBackStrong, hb, hone, if_true, haction, Heap.removeUnit,
          Heap.modifyBlock_eq_setBlock _ hb, weight_record, List.map_cons, List.map_nil,
          List.sum_cons, List.sum_nil, Task.weight]
        omega
      | some action =>
        rw [giveBackStrong_last hb hone haction]
        have htasks := action.sum_weight_tasks_lt b.resource
        have hset := weight_setBlock hb { b.removeUnit .strong with action := none }
        have hweight : b.weight = action.weight := by simp [Block.weight, haction]
        have hnone : Block.weight { b.removeUnit .strong with action := none } = 0 := rfl
        rw [hweight, hnone] at hset
        simp only [weight_start, weight_record, List.map_append, List.sum_append, List.map_cons,
          List.map_nil, List.sum_cons, List.sum_nil, Task.weight] at hset ⊢
        omega
    · rw [giveBackStrong_more hb hone]
      have hset := weight_setBlock hb (b.removeUnit .strong)
      simp only [List.map_nil, List.sum_nil]
      omega

/-- What is put on the stack when a handle is dropped is paid for. -/
theorem weight_giveBack_le (s : State) (h : Handle) :
    (s.giveBack h).1.weight + ((s.giveBack h).2.map Task.weight).sum ≤ s.weight + 1 := by
  rw [giveBack]
  split
  · simp
  · next l _ =>
    split
    · exact weight_giveBackStrong_le s l
    · simpa using Nat.le_succ_of_le (weight_giveBackWeak_le s l)

/-- The drops of the handles that a resource held are paid for. -/
theorem weight_destroy_le (s : State) (r : Nat) :
    (s.destroy r).1.weight + ((s.destroy r).2.map Task.weight).sum ≤ s.weight := by
  rw [destroy]
  split
  · simp
  · next x hx =>
    have hdrops : ((x.links.map Task.drop).map Task.weight).sum = x.weight := by
      simp [Task.weight, Resource.weight, Function.comp_def, Nat.mul_comm]
    have hstate : ∀ s' : State, s'.heap = s.heap → s'.slots = s.slots →
        ({ s' with heap := { s'.heap with resources := s'.heap.resources.erase r } } :
          State).weight + x.weight = s.weight := by
      intro s' hheap hslots
      simp only [weight, hheap, hslots, Table.weight_of_get? Resource.weight hx]
      omega
    simp only [hdrops]
    split
    · exact Nat.le_of_eq (hstate (s.record _) rfl rfl)
    · exact Nat.le_of_eq (hstate s rfl rfl)

end State

/-! ### Runs -/

namespace Machine

variable {m : Machine}

/-- A running machine weighs as much as its state and its tasks. -/
theorem weight_run (s : State) (tasks rest : List Task) :
    (run (s, tasks) rest).weight =
      s.weight + (tasks.map Task.weight).sum + (rest.map Task.weight).sum := by
  rw [Nat.add_assoc, ← List.sum_append, ← List.map_append]
  rfl

/-- A machine that keeps a property and gets lighter with every step until it halts comes to a halt
with that property, if it has fuel for its weight. -/
theorem halted_steps {p : Machine → Prop}
    (hstep : ∀ m, p m → m.halted = false → p m.step ∧ m.step.weight < m.weight) {fuel : Nat}
    (hm : p m) (hfuel : m.weight ≤ fuel) : (m.steps fuel).halted ∧ p (m.steps fuel) := by
  induction fuel generalizing m with
  | zero =>
    cases hhalted : m.halted with
    | true => exact ⟨hhalted, hm⟩
    | false =>
      have hlt := (hstep m hm hhalted).2
      omega
  | succ fuel ih =>
    cases hhalted : m.halted with
    | true =>
      simp only [steps, hhalted, if_true]
      exact ⟨trivial, hm⟩
    | false =>
      obtain ⟨hnext, hlt⟩ := hstep m hm hhalted
      simp only [steps, hhalted]
      exact ih hnext (by omega)

/-- The same for a machine whose first step leads there. -/
theorem halted_finish {p : Machine → Prop}
    (hstep : ∀ m, p m → m.halted = false → p m.step ∧ m.step.weight < m.weight)
    (hhalted : m.halted = false) (hm : p m.step) (hlt : m.step.weight < m.weight) :
    m.finish.halted ∧ p m.finish := by
  rw [finish]
  cases hweight : m.weight with
  | zero => omega
  | succ fuel =>
    simp only [steps, hhalted]
    exact halted_steps hstep hm (by omega)

end Machine

end SharedOwnership
