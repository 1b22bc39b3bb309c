import SharedOwnership.Proofs.Ownership
import SharedOwnership.Proofs.Teardown
import SharedOwnership.Proofs.Weight

/-!
# Teardowns without commands

When release actions only drop their resources, the drop of a handle sets off drops of handles, of
resources and of weak units, and nothing else. Meanwhile nothing new comes into the heap, and what
is there stays as it is but for counters, until it goes. Each step makes the machine lighter, so the
teardown comes to an end.

## Main definitions

* `ReleaseAction.Plain` — whether a release action only drops its resource.
* `Heap.Fades` — what becomes of a heap meanwhile.
* `Machine.Winding` — whether a machine carries out such a teardown.
-/

namespace SharedOwnership

namespace ReleaseAction

/-- Whether a release action only drops its resource. -/
def Plain : ReleaseAction → Prop
  | .discard => True
  | .scripted _ _ script panics => script.isEmpty ∧ panics = false

instance : DecidablePred Plain
  | .discard => inferInstanceAs (Decidable True)
  | .scripted _ _ script panics => inferInstanceAs (Decidable (script.isEmpty ∧ panics = false))

theorem Plain.tasks_eq {action : ReleaseAction} (h : action.Plain) (resource : Option Nat) :
    action.tasks resource = resource.toList.map .destroy := by
  cases action with
  | discard => rfl
  | scripted number ty script panics =>
    obtain ⟨hscript, rfl⟩ := h
    simp [tasks, List.isEmpty_iff.1 hscript]

end ReleaseAction

/-! ### The heap -/

/-- What becomes of a block: its release action may be started, and its counters change. -/
structure Block.Fades (b b' : Block) : Prop where
  resource : b'.resource = b.resource
  lent : b'.lent = b.lent
  lost : b'.lost = b.lost
  unwound : b'.unwound = b.unwound
  action : b'.action = b.action ∨ b'.action = none

namespace Block.Fades

variable {b b' b'' : Block}

theorem refl (b : Block) : b.Fades b := ⟨rfl, rfl, rfl, rfl, .inl rfl⟩

theorem trans (h : b.Fades b') (h' : b'.Fades b'') : b.Fades b'' := by
  refine ⟨h'.resource.trans h.resource, h'.lent.trans h.lent, h'.lost.trans h.lost,
    h'.unwound.trans h.unwound, ?_⟩
  rcases h'.action with heq | hnone
  · rw [heq]
    exact h.action
  · exact .inr hnone

/-- The units that no handle holds stay. -/
theorem unheld (h : b.Fades b') (k : Kind) : b'.unheld k = b.unheld k := by
  rw [Block.unheld, Block.unheld, h.lent, h.lost]

theorem action_of_isSome (h : b.Fades b') (haction : b'.action.isSome) : b'.action = b.action := by
  refine h.action.resolve_right fun hnone => ?_
  simp [hnone] at haction

end Block.Fades

namespace Heap

/-- What becomes of a heap: blocks and resources go, and what stays changes in its counters only,
or because release actions are started. -/
structure Fades (heap heap' : Heap) : Prop where
  next_blocks : heap'.blocks.next = heap.blocks.next
  next_resources : heap'.resources.next = heap.resources.next
  resources : ∀ r, heap'.resources.get? r = heap.resources.get? r ∨ heap'.resources.get? r = none
  blocks : ∀ l b', heap'.blocks.get? l = some b' → ∃ b, heap.blocks.get? l = some b ∧ b.Fades b'

namespace Fades

variable {heap heap' heap'' : Heap} {k : Kind} {l l' r : Nat} {b b' : Block} {x : Resource}

theorem refl (heap : Heap) : heap.Fades heap :=
  ⟨rfl, rfl, fun _ => .inl rfl, fun _ b hb => ⟨b, hb, .refl b⟩⟩

theorem trans (h : heap.Fades heap') (h' : heap'.Fades heap'') : heap.Fades heap'' := by
  refine ⟨h'.next_blocks.trans h.next_blocks, h'.next_resources.trans h.next_resources,
    fun r => ?_, fun l b'' hb'' => ?_⟩
  · rcases h'.resources r with heq | hnone
    · rw [heq]
      exact h.resources r
    · exact .inr hnone
  · obtain ⟨b', hb', hfades'⟩ := h'.blocks l b'' hb''
    obtain ⟨b, hb, hfades⟩ := h.blocks l b' hb'
    exact ⟨b, hb, hfades.trans hfades'⟩

theorem setBlock (hb : heap.blocks.get? l = some b) (hfades : b.Fades b') :
    heap.Fades (heap.setBlock l b') := by
  refine ⟨next_blocks_setBlock .., rfl, fun _ => .inl rfl, fun l' c hc => ?_⟩
  rw [get?_setBlock hb] at hc
  split at hc
  · next heq =>
    cases hc
    exact ⟨b, heq ▸ hb, hfades⟩
  · exact ⟨c, hc, .refl c⟩

theorem eraseBlock (heap : Heap) (l : Nat) :
    heap.Fades { heap with blocks := heap.blocks.erase l } := by
  refine ⟨Table.next_erase .., rfl, fun _ => .inl rfl, fun l' c hc => ⟨c, ?_, .refl c⟩⟩
  rw [Table.get?_erase] at hc
  split at hc
  · cases hc
  · exact hc

theorem eraseResource (heap : Heap) (r : Nat) :
    heap.Fades { heap with resources := heap.resources.erase r } := by
  refine ⟨rfl, Table.next_erase .., fun r' => ?_, fun l b hb => ⟨b, hb, .refl b⟩⟩
  rw [Table.get?_erase]
  split
  · exact .inr rfl
  · exact .inl rfl

/-- What becomes of a block that stays. -/
theorem block (h : heap.Fades heap') (hb : heap.blocks.get? l = some b)
    (hb' : heap'.blocks.get? l = some b') : b.Fades b' := by
  obtain ⟨c, hc, hfades⟩ := h.blocks l b' hb'
  obtain rfl : b = c := Option.some.inj (hb.symm.trans hc)
  exact hfades

/-- A block that is gone does not come back. -/
theorem get?_blocks_eq_none (h : heap.Fades heap') (hnone : heap.blocks.get? l = none) :
    heap'.blocks.get? l = none := by
  refine Option.eq_none_iff_forall_ne_some.2 fun b' hb' => ?_
  obtain ⟨b, hb, -⟩ := h.blocks l b' hb'
  cases hnone.symm.trans hb

/-- A resource that is still there is as it was. -/
theorem get?_resources (h : heap.Fades heap') (hx : heap'.resources.get? r = some x) :
    heap.resources.get? r = some x := by
  rcases h.resources r with heq | hnone
  · exact heq.symm.trans hx
  · cases hnone.symm.trans hx

theorem unreleased (h : heap.Fades heap') (hl : heap'.Unreleased l) : heap.Unreleased l := by
  obtain ⟨b', hb', haction⟩ := hl
  obtain ⟨b, hb, hfades⟩ := h.blocks l b' hb'
  exact ⟨b, hb, hfades.action_of_isSome haction ▸ haction⟩

theorem inCharge (h : heap.Fades heap') (hl : heap'.InCharge l r) : heap.InCharge l r := by
  obtain ⟨b', hb', haction, hr⟩ := hl
  obtain ⟨b, hb, hfades⟩ := h.blocks l b' hb'
  exact ⟨b, hb, hfades.action_of_isSome haction ▸ haction, hfades.resource.symm.trans hr⟩

/-- A block that was not released meanwhile is still in charge of its resource. -/
theorem inCharge_of_unreleased (h : heap.Fades heap') (hl : heap.InCharge l r)
    (hl' : heap'.Unreleased l) : heap'.InCharge l r := by
  obtain ⟨b, hb, -, hr⟩ := hl
  obtain ⟨b', hb', haction⟩ := hl'
  exact ⟨b', hb', haction, (h.block hb hb').resource.trans hr⟩

theorem holds (h : heap.Fades heap') (hl : heap'.Holds k l l') : heap.Holds k l l' := by
  obtain ⟨r, x, g, hcharge, hx, hg⟩ := hl
  exact ⟨r, x, g, h.inCharge hcharge, h.get?_resources hx, hg⟩

end Fades

end Heap

/-! ### Steps -/

/-- Whether a task belongs to a teardown without commands, or to the end of a command. -/
def Task.isWinding : Task → Bool
  | .drop _ | .finish _ | .destroy _ | .settle [] (.answer _) => true
  | _ => false

/-- A state, and what is left to do, after one step of such a teardown. -/
structure State.Fades (s : State) (next : State × List Task) : Prop where
  heap : s.heap.Fades next.1.heap
  slots : next.1.slots = s.slots
  tasks : ∀ t ∈ next.2, t.isWinding

namespace State

variable {s : State} {ts : List Task} {h : Handle} {l : Nat}

theorem fades_giveBack (hL : (s.ledger (.drop h :: ts)).Sound) (hplain : ∀ l b action,
    s.heap.blocks.get? l = some b → b.action = some action → action.Plain) :
    s.Fades (s.giveBack h) := by
  have hgives := givesBack hL
  generalize s.giveBack h = next at hgives
  cases hgives with
  | empty hl => exact ⟨.refl s.heap, rfl, by simp⟩
  | unit l b hl hb hc => exact ⟨.setBlock hb ⟨rfl, rfl, rfl, rfl, .inl rfl⟩, rfl, by simp⟩
  | release l b action hk hl hb hc haction =>
    refine ⟨?_, slots_start .., fun t ht => ?_⟩
    · rw [heap_start]
      exact .setBlock hb ⟨rfl, rfl, rfl, rfl, .inr rfl⟩
    · rw [(hplain l b action hb haction).tasks_eq] at ht
      rcases List.mem_append.1 ht with ht | ht
      · obtain ⟨r, -, rfl⟩ := List.mem_map.1 ht
        rfl
      · rw [List.mem_singleton.1 ht]
        rfl
  | free l b hk hl hb hc => exact ⟨.eraseBlock s.heap l, rfl, by simp⟩

theorem fades_giveBackWeak (hL : (s.ledger (.finish l :: ts)).Sound) :
    s.Fades (s.giveBackWeak l, []) := by
  have hends := ends hL
  generalize s.giveBackWeak l = next at hends
  cases hends with
  | observed b hb hc => exact ⟨.setBlock hb ⟨rfl, rfl, rfl, rfl, .inl rfl⟩, rfl, by simp⟩
  | free b hb hc => exact ⟨.eraseBlock s.heap l, rfl, by simp⟩

theorem fades_destroy (s : State) (r : Nat) : s.Fades (s.destroy r) := by
  rw [destroy]
  split
  · exact ⟨.refl s.heap, rfl, by simp⟩
  · refine ⟨?_, ?_, by simp [Task.isWinding]⟩
    · split <;> exact .eraseResource s.heap r
    · split <;> rfl

end State

namespace Machine

variable {m n : Machine}

/-- Nothing is left to do but a teardown without commands. -/
structure Winding (m : Machine) : Prop where
  control : m.control = .running
  tasks : ∀ t ∈ m.stack, t.isWinding
  plain : ∀ l b action, m.state.heap.blocks.get? l = some b → b.action = some action →
    action.Plain

/-- What a step of such a teardown does: the heap fades, and the machine gets lighter. -/
structure Winds (m n : Machine) : Prop where
  control : n.control = .running
  tasks : ∀ t ∈ n.stack, t.isWinding
  heap : m.state.heap.Fades n.state.heap
  slots : n.state.slots = m.state.slots
  weight : n.weight < m.weight

/-- A machine that takes up what a task leaves gets lighter if the task pays for it. -/
theorem winds_run {s : State} {next : State × List Task} {t : Task} {rest : List Task}
    (hnext : s.Fades next) (hrest : ∀ t ∈ rest, t.isWinding)
    (hweight : next.1.weight + (next.2.map Task.weight).sum < s.weight + t.weight) :
    Winds ⟨s, .running, t :: rest⟩ (run next rest) := by
  refine ⟨rfl, fun t' ht' => ?_, hnext.heap, hnext.slots, ?_⟩
  · rcases List.mem_append.1 ht' with ht' | ht'
    · exact hnext.tasks t' ht'
    · exact hrest t' ht'
  · have hbefore : (Machine.mk s .running (t :: rest)).weight =
        s.weight + t.weight + (rest.map Task.weight).sum := weight_run s [t] rest
    have hafter : (run next rest).weight = _ := weight_run next.1 next.2 rest
    omega

theorem Winding.winds_step (hm : m.Winding) (hL : m.ledger.Sound) (hhalted : m.halted = false) :
    m.Winds m.step := by
  obtain ⟨s, control, stack⟩ := m
  obtain ⟨rfl, htasks, hplain⟩ := hm
  rcases stack with _ | ⟨t, rest⟩
  · simp [halted] at hhalted
  have hrest : ∀ t ∈ rest, t.isWinding := fun t ht => htasks t (List.mem_cons_of_mem _ ht)
  have hhead := htasks t List.mem_cons_self
  cases t with
  | drop h =>
    refine winds_run (State.fades_giveBack hL hplain) hrest ?_
    exact Nat.lt_of_le_of_lt (s.weight_giveBack_le h) (by simp [Task.weight, handleWeight])
  | finish l =>
    refine winds_run (State.fades_giveBackWeak hL) hrest ?_
    exact Nat.lt_succ_of_le (s.weight_giveBackWeak_le l)
  | destroy r =>
    exact winds_run (s.fades_destroy r) hrest (Nat.lt_succ_of_le (s.weight_destroy_le r))
  | settle puts pending =>
    rcases puts with _ | ⟨put, puts⟩
    · cases pending with
      | answer a =>
        have hfades : s.Fades ({ s with answer := a }, []) := ⟨.refl s.heap, rfl, by simp⟩
        exact winds_run hfades hrest (Nat.lt_succ_self _)
      | _ => cases hhead
    · cases hhead
  | _ => cases hhead

theorem Winding.of_winds (hm : m.Winding) (h : m.Winds n) : n.Winding := by
  refine ⟨h.control, h.tasks, fun l b' action hb' haction => ?_⟩
  obtain ⟨b, hb, hblock⟩ := h.heap.blocks l b' hb'
  have hsame := hblock.action_of_isSome (by simp [haction])
  exact hm.plain l b action hb (hsame.symm.trans haction)

end Machine

end SharedOwnership
