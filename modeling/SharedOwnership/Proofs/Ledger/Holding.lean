import Mathlib.Data.Multiset.Bind
import Mathlib.Tactic.Abel
import SharedOwnership.Proofs.Ledger.Sound

/-!
# Where handles are

A handle that goes from one slot to another, into a resource, out of it, or onto the stack stays in
the ledger. What is said here about slots, resources and tasks is what that takes.
-/

namespace SharedOwnership

namespace Slots

variable {slots : Slots} {name : String} {h : Handle}

theorem mem_handles : h ∈ slots.handles ↔ ∃ name, slots.get? name = some h := by
  simp [handles, get?_eq_some]

theorem handles_put (slots : Slots) (name : String) (h : Handle) :
    (slots.put name h).handles = h ::ₘ (slots.erase name).handles :=
  Multiset.coe_eq_coe.2 ((perm_put slots name h).map Prod.snd)

theorem handles_of_get? (hg : slots.get? name = some h) :
    slots.handles = h ::ₘ (slots.erase name).handles :=
  Multiset.coe_eq_coe.2 ((perm_erase hg).map Prod.snd)

theorem handles_erase_of_vacant (hg : slots.get? name = none) :
    (slots.erase name).handles = slots.handles := by
  rw [handles, handles, entries_erase_of_vacant hg]

theorem handles_put_of_vacant (h : Handle) (hg : slots.get? name = none) :
    (slots.put name h).handles = h ::ₘ slots.handles := by
  rw [handles_put, handles_erase_of_vacant hg]

/-- A handle that takes a slot displaces the one that was there. -/
theorem handles_put_of_get? {g : Handle} (hg : slots.get? name = some g) (h : Handle) :
    g ::ₘ (slots.put name h).handles = h ::ₘ slots.handles := by
  rw [handles_put, handles_of_get? hg, Multiset.cons_swap]

end Slots

namespace Heap

variable {heap heap' : Heap} {r : Nat} {x : Resource}

theorem links_congr (h : heap'.resources = heap.resources) : heap'.links = heap.links := by
  rw [links, links, h]

@[simp] theorem links_setBlock (heap : Heap) (l : Nat) (b : Block) :
    (heap.setBlock l b).links = heap.links := links_congr rfl

@[simp] theorem links_allocate (heap : Heap) (layout : Layout) (resource : Option Nat)
    (action : ReleaseAction) : (heap.allocate layout resource action).1.links = heap.links :=
  links_congr rfl

/-- A new resource holds no handles. -/
@[simp] theorem links_keep (heap : Heap) (c : Option Content) :
    (heap.keep c).1.links = heap.links := by
  cases c with
  | none => rfl
  | some c => simp [links, keep, store]

theorem links_of_get? (hx : heap.resources.get? r = some x) :
    heap.links = x.links + ({ heap with resources := heap.resources.erase r } : Heap).links := by
  have hperm := (Table.perm_values hx).flatMap_right Resource.links
  exact Multiset.coe_eq_coe.2 (by simpa [links] using hperm)

/-- What a changed resource holds takes the place of what it held. -/
theorem links_modifyResource (hx : heap.resources.get? r = some x) (f : Resource → Resource) :
    (heap.modifyResource r f).links + x.links = heap.links + (f x).links := by
  have hx' : (heap.modifyResource r f).resources.get? r = some (f x) := by
    rw [modifyResource, Table.get?_modify, if_pos rfl, hx, Option.map_some]
  rw [links_of_get? hx, links_of_get? hx']
  simp only [modifyResource, Table.erase_modify]
  abel

end Heap

/-! ### Tasks -/

namespace Task

@[simp] theorem handles_map_drop (hs : List Handle) :
    (hs.map Task.drop).flatMap Task.handles = hs := by
  simp [List.flatMap_map, handles]

@[simp] theorem finishing_map_drop (hs : List Handle) :
    (hs.map Task.drop).flatMap Task.finishing = [] := by
  induction hs with
  | nil => rfl
  | cons h hs ih => exact ih

@[simp] theorem doomed_map_drop (hs : List Handle) :
    (hs.map Task.drop).flatMap Task.doomed = [] := by
  induction hs with
  | nil => rfl
  | cons h hs ih => exact ih

end Task

namespace ReleaseAction

/-- What a release action does: the commands of its script with their reports, the drop of the
resource, and a panic. -/
theorem mem_tasks {action : ReleaseAction} {resource : Option Nat} {t : Task}
    (ht : t ∈ action.tasks resource) :
    (∃ c ∈ action.script, t = .perform c) ∨ t = .report ∨ (∃ r, t = .destroy r) ∨
      ∃ p, t = .throw p := by
  cases action with
  | discard =>
    obtain ⟨r, -, rfl⟩ := List.mem_map.1 ht
    exact .inr (.inr (.inl ⟨r, rfl⟩))
  | scripted number ty script panics =>
    simp only [tasks, List.mem_append, List.mem_flatMap, List.mem_cons, List.mem_map] at ht
    rcases ht with (⟨c, hc, rfl | rfl | ht⟩ | ⟨r, -, rfl⟩) | ht
    · exact .inl ⟨c, hc, rfl⟩
    · exact .inr (.inl rfl)
    · cases ht
    · exact .inr (.inr (.inl ⟨r, rfl⟩))
    · split at ht
      · exact .inr (.inr (.inr ⟨_, List.mem_singleton.1 ht⟩))
      · cases ht

/-- A release action works on no handles of its own. -/
@[simp] theorem handles_tasks (action : ReleaseAction) (resource : Option Nat) :
    (action.tasks resource).flatMap Task.handles = [] := by
  refine List.flatMap_eq_nil_iff.2 fun t ht => ?_
  rcases mem_tasks ht with ⟨c, -, rfl⟩ | rfl | ⟨r, rfl⟩ | ⟨p, rfl⟩ <;> rfl

/-- A release action does not end itself. -/
@[simp] theorem finishing_tasks (action : ReleaseAction) (resource : Option Nat) :
    (action.tasks resource).flatMap Task.finishing = [] := by
  refine List.flatMap_eq_nil_iff.2 fun t ht => ?_
  rcases mem_tasks ht with ⟨c, -, rfl⟩ | rfl | ⟨r, rfl⟩ | ⟨p, rfl⟩ <;> rfl

/-- A release action drops its resource, and once only. -/
@[simp] theorem doomed_tasks (action : ReleaseAction) (resource : Option Nat) :
    (action.tasks resource).flatMap Task.doomed = resource.toList := by
  have hscript : ∀ script : List Command,
      (script.flatMap fun c => [Task.perform c, .report]).flatMap Task.doomed = [] := by
    intro script
    simp [List.flatMap_assoc, Task.doomed]
  cases action with
  | discard => cases resource <;> rfl
  | scripted number ty script panics =>
    simp only [tasks, List.flatMap_append, hscript]
    cases resource <;> cases panics <;> rfl

end ReleaseAction

namespace State

variable {s : State} {ts : List Task} {name : String} {h : Handle}

/-- The handles of a state and of the tasks that remain. -/
theorem handles_ledger (s : State) (ts : List Task) : (s.ledger ts).handles =
    s.slots.handles + s.heap.links + (ts.flatMap Task.handles : List Handle) := rfl

/-- Handles in slots are in the ledger. -/
theorem mem_handles_ledger (hg : s.slots.get? name = some h) (ts : List Task) :
    h ∈ (s.ledger ts).handles := by
  rw [handles_ledger, Slots.handles_of_get? hg]
  simp

/-- A handle that goes into a vacant slot is one more. -/
theorem ledger_put (hv : s.slots.get? name = none) (h : Handle) (ts : List Task) :
    (s.put name h).ledger ts = { s.ledger ts with handles := h ::ₘ (s.ledger ts).handles } := by
  refine Ledger.ext rfl ?_ rfl rfl rfl
  simp [handles_ledger, put, Slots.handles_put_of_vacant h hv]

/-- A handle that leaves its slot is one less. -/
theorem ledger_vacate (hg : s.slots.get? name = some h) (ts : List Task) :
    s.ledger ts =
      { (s.vacate name).ledger ts with handles := h ::ₘ ((s.vacate name).ledger ts).handles } := by
  refine Ledger.ext rfl ?_ rfl rfl rfl
  simp [handles_ledger, vacate, Slots.handles_of_get? hg]

/-- A handle that displaces another one is one more, for one less. -/
theorem ledger_displace {g : Handle} (hg : s.slots.get? name = some g) (h : Handle)
    (ts : List Task) :
    ({ (s.put name h).ledger ts with
      handles := g ::ₘ ((s.put name h).ledger ts).handles } : Ledger) =
      { s.ledger ts with handles := h ::ₘ (s.ledger ts).handles } := by
  refine Ledger.ext rfl ?_ rfl rfl rfl
  simp only [handles_ledger, put, ← Multiset.cons_add, Slots.handles_put_of_get? hg]

/-- The heap changes, but no resource does. -/
theorem ledger_withHeap (s : State) {heap : Heap} (hr : heap.resources = s.heap.resources)
    (ts : List Task) : ({ s with heap } : State).ledger ts = { s.ledger ts with heap } := by
  refine Ledger.ext rfl ?_ rfl rfl rfl
  simp [handles_ledger, Heap.links_congr hr]

theorem gain_withHeap (s : State) {heap : Heap} (hr : heap.resources = s.heap.resources)
    (h : Handle) (ts : List Task) :
    ({ s.ledger ts with heap, handles := h ::ₘ (s.ledger ts).handles } : Ledger) =
      { ({ s with heap } : State).ledger ts with
        handles := h ::ₘ (({ s with heap } : State).ledger ts).handles } := by
  rw [ledger_withHeap s hr]

/-- A handle that a task works on is one more. -/
theorem ledger_task (s : State) (h : Handle) (t t' : Task) (ht : t.handles = h :: t'.handles)
    (hf : t.finishing = t'.finishing) (hd : t.doomed = t'.doomed) (ts us : List Task) :
    s.ledger (ts ++ t :: us) =
      { s.ledger (ts ++ t' :: us) with handles := h ::ₘ (s.ledger (ts ++ t' :: us)).handles } := by
  refine Ledger.ext rfl ?_ ?_ ?_ rfl
  · simp only [handles_ledger, List.flatMap_append, List.flatMap_cons, ht, List.cons_append,
      ← Multiset.coe_add, ← Multiset.cons_coe, ← Multiset.singleton_add]
    abel
  · simp [ledger, hf]
  · simp [ledger, hd]

/-- A handle that goes from its slot to a task stays. -/
theorem ledger_vacate_task (hg : s.slots.get? name = some h) (t t' : Task)
    (ht : t.handles = h :: t'.handles) (hf : t.finishing = t'.finishing) (hd : t.doomed = t'.doomed)
    (ts us : List Task) : (s.vacate name).ledger (ts ++ t :: us) = s.ledger (ts ++ t' :: us) := by
  rw [ledger_task _ h t t' ht hf hd, ledger_vacate hg]

end State

end SharedOwnership
