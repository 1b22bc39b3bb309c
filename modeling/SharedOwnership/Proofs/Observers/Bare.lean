import SharedOwnership.Proofs.Ledger.Step

/-!
# What is left without observers

A state is laid bare when it sheds its observers, those in slots and those that resources hold. What
is left of its blocks are those that owners hold in common, with a single weak unit; the others are
there for observers only.

## Main definitions

* `Handle.isOwner` — which handles are left.
* `Resource.bare`, `Block.bare`, `Value.bare`, `Event.bare?` — what is left of the others.
* `Block.isHeld` — whether owners hold a weak unit of a block in common.
* `Heap.Bares`, `State.Bares` — whether one heap, or state, is what is left of another.

## Main results

* `State.Bares.put`, `State.Bares.vacate`, `State.Bares.putObserver`, `State.Bares.vacateObserver` —
  what becomes of slots.
* `State.Bares.giveBackObserver` — the drop of an observer leaves what is left as it is.
* `State.Bares.giveBackOwner`, `State.Bares.finish`, `State.Bares.abandon`, `State.Bares.destroy` —
  what owners and release actions do, they do to what is left, too.
-/

namespace SharedOwnership

/-- Whether a handle is an owner. -/
def Handle.isOwner (h : Handle) : Bool := h.kind = .strong

theorem Handle.kind_of_isOwner {h : Handle} (hh : h.isOwner) : h.kind = .strong := by
  simpa [isOwner] using hh

theorem Handle.kind_of_not_isOwner {h : Handle} (hh : h.isOwner = false) : h.kind = .weak := by
  cases hk : h.kind with
  | strong => simp [isOwner, hk] at hh
  | weak => rfl

/-- A resource without the observers that it holds. -/
def Resource.bare (x : Resource) : Resource := { x with links := x.links.filter Handle.isOwner }

/-- A value that does not tell how many handles a node holds. -/
def Value.bare : Value → Value
  | .node v _ => .node v 0
  | .object v => .object v.bare
  | v => v

/-- An event, unless it is about the end of a control block or about an answer. -/
def Event.bare? : Event → Option Event
  | .deallocating _ | .deallocated _ _ | .performed _ => none
  | .entered number value => some (.entered number (value.map Value.bare))
  | e => some e

theorem Value.bare_under (v : Value) (ty : Ty) : (v.under ty).bare = v.bare.under ty := by
  rw [under, under]
  split <;> rfl

theorem Resource.bare_value (x : Resource) : x.bare.value.bare = x.value.bare := by
  obtain ⟨content, links⟩ := x
  cases content <;> rfl

namespace Block

/-- A block without the units that observers hold, or that were lent or lost on their side. -/
def bare (b : Block) : Block :=
  { b with counts := ⟨b.counts.strong, 1⟩, lent := ⟨b.lent.strong, 0⟩, lost := ⟨b.lost.strong, 0⟩ }

/-- Whether the owners of a block hold a weak unit in common: as long as its release action was not
started, while it is running, and if it unwound. -/
def isHeld (b : Block) (finishing : Bool) : Bool := b.action.isSome || finishing || b.unwound

variable {b b' : Block} {finishing : Bool}

theorem isHeld_congr (h : b'.bare = b.bare) : b'.isHeld finishing = b.isHeld finishing := by
  have haction : b'.bare.action = b.bare.action := by rw [h]
  have hunwound : b'.bare.unwound = b.bare.unwound := by rw [h]
  exact congrArg₂ (fun action unwound => action.isSome || finishing || unwound) haction hunwound

theorem isHeld_of_isSome (h : b.action.isSome) : b.isHeld finishing := by rw [isHeld, h]; rfl

theorem bare_removeUnit_weak (b : Block) : (b.removeUnit .weak).bare = b.bare := rfl

end Block

/-! ### Heaps -/

namespace Heap

/-- The heap `heap₂` differs from another one in the block labelled `l` only. -/
structure SameBut (l : Nat) (heap heap₂ : Heap) : Prop where
  next : heap₂.blocks.next = heap.blocks.next
  resources : heap₂.resources = heap.resources
  blocks : ∀ l', l ≠ l' → heap₂.blocks.get? l' = heap.blocks.get? l'

theorem SameBut.refl (l : Nat) (heap : Heap) : SameBut l heap heap := ⟨rfl, rfl, fun _ _ => rfl⟩

theorem sameBut_setBlock {heap : Heap} {l : Nat} {b : Block} (hb : heap.blocks.get? l = some b)
    (b' : Block) : SameBut l heap (heap.setBlock l b') := by
  refine ⟨next_blocks_setBlock .., rfl, ?_⟩
  intro l' hne
  rw [get?_setBlock hb, if_neg hne]

theorem sameBut_erase (heap : Heap) (l : Nat) :
    SameBut l heap { heap with blocks := heap.blocks.erase l } := by
  refine ⟨Table.next_erase .., rfl, ?_⟩
  intro l' hne
  exact (Table.get?_erase ..).trans (if_neg hne)

/-- The heap `heap'` is what is left without observers, while the release actions of some blocks are
running. -/
structure Bares (heap : Heap) (finishing : Multiset Nat) (heap' : Heap) : Prop where
  next_blocks : heap'.blocks.next = heap.blocks.next
  next_resources : heap'.resources.next = heap.resources.next
  blocks : ∀ l, heap'.blocks.get? l =
    ((heap.blocks.get? l).filter fun b => b.isHeld (l ∈ finishing)).map Block.bare
  resources : ∀ r, heap'.resources.get? r = (heap.resources.get? r).map Resource.bare

namespace Bares

variable {heap heap' heap₂ heap₂' : Heap} {fin fin₂ : Multiset Nat} {l : Nat} {b b₂ : Block}

theorem get?_of_held (h : heap.Bares fin heap') (hb : heap.blocks.get? l = some b)
    (hheld : b.isHeld (l ∈ fin)) : heap'.blocks.get? l = some b.bare := by
  rw [h.blocks, hb, Option.filter_some, if_pos hheld, Option.map_some]

theorem get?_of_not_held (h : heap.Bares fin heap') (hb : heap.blocks.get? l = some b)
    (hheld : b.isHeld (l ∈ fin) = false) : heap'.blocks.get? l = none := by
  rw [h.blocks, hb, Option.filter_some, if_neg (by simp [hheld]), Option.map_none]

/-- Blocks other than the one that changes are as they were. -/
theorem update (h : heap.Bares fin heap') (hheap : SameBut l heap heap₂)
    (hheap' : SameBut l heap' heap₂') (hfin : ∀ l', l ≠ l' → (l' ∈ fin₂ ↔ l' ∈ fin))
    (hblock : heap₂'.blocks.get? l =
      ((heap₂.blocks.get? l).filter fun b => b.isHeld (l ∈ fin₂)).map Block.bare) :
    heap₂.Bares fin₂ heap₂' := by
  refine ⟨?_, ?_, fun l' => ?_, fun r => ?_⟩
  · rw [hheap'.next, hheap.next, h.next_blocks]
  · rw [hheap'.resources, hheap.resources, h.next_resources]
  · by_cases hl : l = l'
    · exact hl ▸ hblock
    · rw [hheap.blocks l' hl, hheap'.blocks l' hl, h.blocks, decide_eq_decide.2 (hfin l' hl)]
  · rw [hheap'.resources, hheap.resources, h.resources]

/-- A block that changes is held by owners before and after. -/
theorem setBlock (h : heap.Bares fin heap') (hb : heap.blocks.get? l = some b)
    (hheld : b.isHeld (l ∈ fin)) (hfin : ∀ l', l ≠ l' → (l' ∈ fin₂ ↔ l' ∈ fin))
    (hheld₂ : b₂.isHeld (l ∈ fin₂)) :
    (heap.setBlock l b₂).Bares fin₂ (heap'.setBlock l b₂.bare) := by
  have hb' := h.get?_of_held hb hheld
  refine h.update (sameBut_setBlock hb b₂) (sameBut_setBlock hb' b₂.bare) hfin ?_
  rw [get?_setBlock hb', get?_setBlock hb, if_pos rfl, if_pos rfl, Option.filter_some,
    if_pos hheld₂, Option.map_some]

/-- A block that changes on the side of its observers leaves the same behind. -/
theorem setBlock_left (h : heap.Bares fin heap') (hb : heap.blocks.get? l = some b)
    (hbare : b₂.bare = b.bare) : (heap.setBlock l b₂).Bares fin heap' := by
  refine h.update (sameBut_setBlock hb b₂) (.refl l heap') (fun _ _ => Iff.rfl) ?_
  rw [h.blocks, hb, get?_setBlock hb, if_pos rfl, Option.filter_some, Option.filter_some,
    Block.isHeld_congr hbare]
  split
  · rw [Option.map_some, Option.map_some, hbare]
  · rfl

/-- A block that no owner holds leaves nothing behind. -/
theorem erase_left (h : heap.Bares fin heap') (hb : heap.blocks.get? l = some b)
    (hheld : b.isHeld (l ∈ fin) = false) :
    Bares { heap with blocks := heap.blocks.erase l } fin heap' := by
  refine h.update (sameBut_erase heap l) (.refl l heap') (fun _ _ => Iff.rfl) ?_
  rw [h.get?_of_not_held hb hheld, Table.get?_erase, if_pos rfl]
  rfl

/-- The resources change in the same way. -/
theorem withResources (h : heap.Bares fin heap') (hblocks : heap₂.blocks = heap.blocks)
    (hblocks' : heap₂'.blocks = heap'.blocks)
    (hnext : heap₂'.resources.next = heap₂.resources.next)
    (hresources : ∀ r, heap₂'.resources.get? r = (heap₂.resources.get? r).map Resource.bare) :
    heap₂.Bares fin heap₂' := by
  refine ⟨?_, hnext, fun l => ?_, hresources⟩
  · rw [hblocks, hblocks', h.next_blocks]
  · rw [hblocks, hblocks', h.blocks]

theorem modifyResource (h : heap.Bares fin heap') (r : Nat) (f f' : Resource → Resource)
    (hf : ∀ x, heap.resources.get? r = some x → f' x.bare = (f x).bare) :
    (heap.modifyResource r f).Bares fin (heap'.modifyResource r f') := by
  refine h.withResources rfl rfl ?_ fun r' => ?_
  · simp [Heap.modifyResource, h.next_resources]
  · simp only [Heap.modifyResource, Table.get?_modify, h.resources]
    by_cases hr : r = r'
    · rw [if_pos hr, if_pos hr, ← hr]
      cases hx : heap.resources.get? r with
      | none => rfl
      | some x => simp [hf x hx]
    · rw [if_neg hr, if_neg hr]

theorem keep (h : heap.Bares fin heap') (c : Option Content) :
    (heap.keep c).1.Bares fin (heap'.keep c).1 := by
  cases c with
  | none => exact h
  | some c =>
    refine h.withResources rfl rfl ?_ fun r => ?_
    · simp [Heap.keep, store, h.next_resources]
    · simp only [Heap.keep, store, Table.get?_insert, h.resources, h.next_resources]
      split <;> rfl

theorem allocate (h : heap.Bares fin heap') (layout : Layout) (resource : Option Nat)
    (action : ReleaseAction) : (heap.allocate layout resource action).1.Bares fin
      (heap'.allocate layout resource action).1 := by
  refine ⟨?_, h.next_resources, fun l => ?_, h.resources⟩
  · simp [Heap.allocate, h.next_blocks]
  · rw [get?_allocate, get?_allocate, h.next_blocks, h.blocks]
    split <;> rfl

end Bares

end Heap

/-! ### Tasks -/

/-- The blocks whose release actions end with some of the tasks. -/
def endings (ts : List Task) : Multiset Nat := (ts.flatMap Task.finishing : List Nat)

/-- Whether a task works on no observer. -/
def Task.isBare : Task → Bool
  | .drop h => h.isOwner
  | .spawn hs => hs.all Handle.isOwner
  | .settle puts (.answer _) | .settle puts (.failed _ _) => puts.all fun put => put.2.isOwner
  | .settle _ .observed => false
  | _ => true

/-- A task and what is left of it without observers. A command may end with another answer. -/
inductive Task.Bares : Task → Task → Prop
  | same (t : Task) (ht : t.isBare) : Bares t t
  | spawn (hs : List Handle) : Bares (.spawn hs) (.spawn (hs.filter Handle.isOwner))
  | settle (puts : List (String × Handle)) (a a' : Answer)
      (hputs : puts.all fun put => put.2.isOwner) :
    Bares (.settle puts (.answer a)) (.settle puts (.answer a'))

/-- Tasks and what is left of them without observers: the drops of observers are left out. -/
inductive Tasks.Bares : List Task → List Task → Prop
  | nil : Bares [] []
  | drop {ts us : List Task} (h : Handle) (hh : h.isOwner = false) (hrest : Bares ts us) :
    Bares (.drop h :: ts) us
  | cons {t u : Task} {ts us : List Task} (ht : t.Bares u) (hrest : Bares ts us) :
    Bares (t :: ts) (u :: us)

namespace Tasks.Bares

variable {ts ts' us us' : List Task}

theorem append (h : Tasks.Bares ts us) (h' : Tasks.Bares ts' us') :
    Tasks.Bares (ts ++ ts') (us ++ us') := by
  induction h with
  | nil => exact h'
  | drop h hh _ ih => exact .drop h hh ih
  | cons ht _ ih => exact .cons ht ih

theorem of_forall (h : ∀ t ∈ ts, t.isBare) : Tasks.Bares ts ts := by
  induction ts with
  | nil => exact .nil
  | cons t ts ih =>
    exact .cons (.same t (h t List.mem_cons_self)) (ih fun t' ht' => h t' (.tail t ht'))

theorem map_drop (hs : List Handle) :
    Tasks.Bares (hs.map .drop) ((hs.filter Handle.isOwner).map .drop) := by
  induction hs with
  | nil => exact .nil
  | cons h hs ih =>
    cases hh : h.isOwner with
    | true =>
      rw [List.filter_cons_of_pos hh]
      exact .cons (.same _ hh) ih
    | false =>
      rw [List.filter_cons_of_neg (by simp [hh])]
      exact .drop h hh ih

/-- A panic that waits is left. -/
theorem isUnwinding_eq (h : Tasks.Bares ts us) : isUnwinding us = isUnwinding ts := by
  induction h with
  | nil => rfl
  | drop h hh _ ih => exact ih
  | @cons t u ts us ht _ ih =>
    cases ht with
    | same => cases t <;> simp only [isUnwinding, ih]
    | spawn | settle => exact ih

end Tasks.Bares

/-- A release action works on no handle of its own. -/
theorem ReleaseAction.isBare_of_mem_tasks {action : ReleaseAction} {resource : Option Nat}
    {t : Task} (ht : t ∈ action.tasks resource) : t.isBare := by
  rcases mem_tasks ht with ⟨c, -, rfl⟩ | rfl | ⟨r, rfl⟩ | ⟨p, rfl⟩ <;> rfl

/-! ### States -/

/-- The state `s'` is what is left without observers, while the release actions of some blocks are
running. When blocks are freed, and what was answered, makes no difference. -/
structure State.Bares (s : State) (finishing : Multiset Nat) (s' : State) : Prop where
  heap : s.heap.Bares finishing s'.heap
  slots : ∀ name, s'.slots.get? name = (s.slots.get? name).filter Handle.isOwner
  numbered : s'.numbered = s.numbered
  lastFailure : s'.lastFailure = s.lastFailure
  trace : s'.trace.filterMap Event.bare? = s.trace.filterMap Event.bare?

namespace State.Bares

variable {s s' : State} {fin : Multiset Nat} {heap heap' : Heap} {slot : String} {h : Handle}
  {e : Event} {l : Nat} {ts : List Task}

theorem withHeap (hs : s.Bares fin s') {fin₂ : Multiset Nat} (hheap : heap.Bares fin₂ heap') :
    State.Bares { s with heap } fin₂ { s' with heap := heap' } :=
  ⟨hheap, hs.slots, hs.numbered, hs.lastFailure, hs.trace⟩

theorem answer (hs : s.Bares fin s') (a a' : Answer) :
    State.Bares { s with answer := a } fin { s' with answer := a' } :=
  ⟨hs.heap, hs.slots, hs.numbered, hs.lastFailure, hs.trace⟩

theorem record (hs : s.Bares fin s') (e : Event) : (s.record e).Bares fin (s'.record e) := by
  refine ⟨hs.heap, hs.slots, hs.numbered, hs.lastFailure, ?_⟩
  simp only [State.record, List.filterMap_cons, hs.trace]

theorem trace_left (hs : s.Bares fin s') (es : List Event) (hes : es.filterMap Event.bare? = []) :
    State.Bares { s with trace := es ++ s.trace } fin s' := by
  refine ⟨hs.heap, hs.slots, hs.numbered, hs.lastFailure, ?_⟩
  rw [List.filterMap_append, hes, List.nil_append, hs.trace]

theorem trace_right (hs : s.Bares fin s') (es : List Event) (hes : es.filterMap Event.bare? = []) :
    s.Bares fin { s' with trace := es ++ s'.trace } := by
  refine ⟨hs.heap, hs.slots, hs.numbered, hs.lastFailure, ?_⟩
  rw [List.filterMap_append, hes, List.nil_append, hs.trace]

/-! #### Slots -/

theorem get?_owner (hs : s.Bares fin s') (hg : s.slots.get? slot = some h) (hh : h.isOwner) :
    s'.slots.get? slot = some h := by
  rw [hs.slots, hg, Option.filter_some, if_pos hh]

theorem get?_vacant (hs : s.Bares fin s') (hg : s.slots.get? slot = none) :
    s'.slots.get? slot = none := by
  rw [hs.slots, hg]
  rfl

theorem put (hs : s.Bares fin s') (slot : String) (hh : h.isOwner) :
    (s.put slot h).Bares fin (s'.put slot h) := by
  refine ⟨hs.heap, fun name => ?_, hs.numbered, hs.lastFailure, hs.trace⟩
  simp only [State.put, Slots.get?_put, hs.slots]
  split
  · rw [Option.filter_some, if_pos hh]
  · rfl

theorem vacate (hs : s.Bares fin s') (slot : String) :
    (s.vacate slot).Bares fin (s'.vacate slot) := by
  refine ⟨hs.heap, fun name => ?_, hs.numbered, hs.lastFailure, hs.trace⟩
  simp only [State.vacate, Slots.get?_erase, hs.slots]
  split <;> rfl

/-- An observer takes a slot that no owner has. -/
theorem putObserver (hs : s.Bares fin s') (hg : s'.slots.get? slot = none)
    (hh : h.isOwner = false) : (s.put slot h).Bares fin s' := by
  refine ⟨hs.heap, fun name => ?_, hs.numbered, hs.lastFailure, hs.trace⟩
  simp only [State.put, Slots.get?_put]
  by_cases hname : slot = name
  · rw [if_pos hname, ← hname, hg, Option.filter_some, if_neg (by simp [hh])]
  · rw [if_neg hname, hs.slots]

/-- A slot is emptied that no owner has. -/
theorem vacateObserver (hs : s.Bares fin s') (hg : s'.slots.get? slot = none) :
    (s.vacate slot).Bares fin s' := by
  refine ⟨hs.heap, fun name => ?_, hs.numbered, hs.lastFailure, hs.trace⟩
  simp only [State.vacate, Slots.get?_erase]
  by_cases hname : slot = name
  · rw [if_pos hname, ← hname, hg]
    rfl
  · rw [if_neg hname, hs.slots]

/-- A slot that an observer has is vacant in what is left. -/
theorem get?_observer (hs : s.Bares fin s') (hg : s.slots.get? slot = some h)
    (hh : h.isOwner = false) : s'.slots.get? slot = none := by
  rw [hs.slots, hg, Option.filter_some, if_neg (by simp [hh])]

/-! #### Teardown -/

theorem start (hs : s.Bares fin s') (action : ReleaseAction) (resource : Option Nat) :
    (s.start action resource).1.Bares fin (s'.start action resource).1 := by
  cases action with
  | discard => exact hs
  | scripted number ty script panics =>
    have hvalue : ((resource.bind s'.heap.resources.get?).map fun r => r.value.under ty).map
        Value.bare = ((resource.bind s.heap.resources.get?).map fun r => r.value.under ty).map
          Value.bare := by
      cases resource with
      | none => rfl
      | some r =>
        simp only [Option.bind_some, hs.heap.resources]
        cases s.heap.resources.get? r with
        | none => rfl
        | some x => simp [Value.bare_under, Resource.bare_value]
    refine ⟨hs.heap, hs.slots, hs.numbered, hs.lastFailure, ?_⟩
    simp only [State.start, State.record, List.filterMap_cons, Event.bare?, hvalue, hs.trace]

/-- The drop of an observer leaves what is left as it is. -/
theorem giveBackObserver (hs : s.Bares (endings ts) s') (hL : (s.ledger (.drop h :: ts)).Sound)
    (hh : h.isOwner = false) : (s.giveBack h).1.Bares (endings ts) s' ∧ (s.giveBack h).2 = [] := by
  have hk : h.kind = .weak := Handle.kind_of_not_isOwner hh
  have hgives := givesBack hL
  generalize s.giveBack h = next at hgives
  cases hgives with
  | empty hl => exact ⟨hs, rfl⟩
  | unit l b hl hb hc =>
    rw [hk]
    exact ⟨hs.withHeap (hs.heap.setBlock_left hb b.bare_removeUnit_weak), rfl⟩
  | release l b action hk' => cases hk.symm.trans hk'
  | free l b hk' hl hb hc =>
    obtain ⟨haction, hfinishing, hunwound⟩ :=
      hL.of_last_observer (mem_handles_drop s h ts) hk hl hb hc
    have hheld : b.isHeld (l ∈ endings ts) = false := by
      have hnot : l ∉ endings ts := hfinishing
      simp [Block.isHeld, haction, hunwound, hnot]
    exact ⟨(hs.withHeap (hs.heap.erase_left hb hheld)).trace_left [_, _] rfl, rfl⟩

/-- The drop of an owner is the same for what is left. -/
theorem giveBackOwner (hs : s.Bares (endings ts) s') (hL : (s.ledger (.drop h :: ts)).Sound)
    (hh : h.isOwner) :
    (s.giveBack h).1.Bares (endings ((s.giveBack h).2 ++ ts)) (s'.giveBack h).1 ∧
      (s'.giveBack h).2 = (s.giveBack h).2 := by
  have hk : h.kind = .strong := Handle.kind_of_isOwner hh
  have hheld : ∀ l b, h.block = some l → s.heap.blocks.get? l = some b → b.action.isSome :=
    fun l b hl hb => hL.isSome_action (mem_handles_drop s h ts) hk hl hb
  have hstrong : ∀ l, h.block = some l → s'.giveBack h = s'.giveBackStrong l := by
    intro l hl
    simp only [State.giveBack, hl, hk]
  have hgives := givesBack hL
  generalize s.giveBack h = next at hgives
  cases hgives with
  | empty hl =>
    have hempty : s'.giveBack h = (s', []) := by simp only [State.giveBack, hl]
    rw [hempty]
    exact ⟨hs, rfl⟩
  | unit l b hl hb hc =>
    have hsome := hheld l b hl hb
    have hb' := hs.heap.get?_of_held hb (Block.isHeld_of_isSome hsome)
    rw [hk] at hc
    have hone : b.bare.counts.strong ≠ 1 := Nat.ne_of_gt hc
    rw [hstrong l hl, giveBackStrong_more hb' hone, hk]
    exact ⟨hs.withHeap (hs.heap.setBlock hb (Block.isHeld_of_isSome hsome)
      (fun _ _ => Iff.rfl) (Block.isHeld_of_isSome hsome)), rfl⟩
  | release l b action hk' hl hb hc haction =>
    have hsome := hheld l b hl hb
    have hb' := hs.heap.get?_of_held hb (Block.isHeld_of_isSome hsome)
    have hfin : endings ((action.tasks b.resource ++ [.finish l]) ++ ts) = l ::ₘ endings ts := by
      simp [endings, Task.finishing]
    have hset : (s.heap.setBlock l { b.removeUnit .strong with action := none }).Bares
        (l ::ₘ endings ts) (s'.heap.setBlock l { b.bare.removeUnit .strong with action := none }) :=
      hs.heap.setBlock hb (Block.isHeld_of_isSome hsome) (fun l' hne => by simp [Ne.symm hne])
        (by simp [Block.isHeld])
    rw [hstrong l hl, giveBackStrong_last hb' hc haction, hfin]
    exact ⟨((hs.withHeap hset).record (.releasing l)).start action b.resource, rfl⟩
  | free l b hk' => cases hk.symm.trans hk'

/-- When a release action ends, what is left of its block goes, whoever observes the block still. -/
theorem finish (hs : s.Bares (endings (.finish l :: ts)) s')
    (hL : (s.ledger (.finish l :: ts)).Sound) :
    (s.giveBackWeak l).Bares (endings ts) (s'.giveBackWeak l) := by
  have hmem := mem_finishing_finish s l ts
  obtain ⟨b, hb⟩ := hL.finishing l hmem
  obtain ⟨haction, hcount, hunwound, -⟩ := hL.of_mem_finishing hmem hb
  have hnot : l ∉ endings ts := by
    rw [ledger_finish, Multiset.count_cons_self] at hcount
    exact Multiset.count_eq_zero.1 (Nat.succ.inj hcount)
  have hfin : ∀ l', l ≠ l' → (l' ∈ endings ts ↔ l' ∈ endings (.finish l :: ts)) := by
    intro l' hne
    simp [endings, Task.finishing, Ne.symm hne]
  have hmem' : l ∈ endings (.finish l :: ts) := hmem
  have hheld : b.isHeld (l ∈ endings (.finish l :: ts)) := by simp [Block.isHeld, hmem']
  have hb' : s'.heap.blocks.get? l = some b.bare := hs.heap.get?_of_held hb hheld
  have hgone : ∀ {heap}, Heap.SameBut l s.heap heap →
      (∀ c, heap.blocks.get? l = some c → c.bare = b.bare) →
      heap.Bares (endings ts) { s'.heap with blocks := s'.heap.blocks.erase l } := by
    intro heap hheap hblock
    refine hs.heap.update hheap (Heap.sameBut_erase s'.heap l) hfin ?_
    rw [Table.get?_erase, if_pos rfl]
    cases hc : heap.blocks.get? l with
    | none => rfl
    | some c =>
      have hnone : b.isHeld (l ∈ endings ts) = false := by
        simp [Block.isHeld, haction, hunwound, hnot]
      rw [Option.filter_some, Block.isHeld_congr (hblock c hc), if_neg (by simp [hnone])]
      rfl
  rw [giveBackWeak_last hb' rfl]
  have hends := ends hL
  generalize s.giveBackWeak l = next at hends
  cases hends with
  | observed c hc =>
    obtain rfl : b = c := Option.some.inj (hb.symm.trans hc)
    refine (hs.withHeap (hgone (Heap.sameBut_setBlock hb _) fun c hc => ?_)).trace_right [_, _] rfl
    rw [Heap.get?_setBlock hb, if_pos rfl] at hc
    obtain rfl := Option.some.inj hc
    rfl
  | free c hc =>
    obtain rfl : b = c := Option.some.inj (hb.symm.trans hc)
    refine ((hs.withHeap (hgone (Heap.sameBut_erase s.heap l) fun c hc => ?_)).trace_left
      [_, _] rfl).trace_right [_, _] rfl
    rw [Table.get?_erase, if_pos rfl] at hc
    cases hc

/-- When a release action unwinds, its block stays. -/
theorem abandon (hs : s.Bares (endings (.finish l :: ts)) s')
    (hL : (s.ledger (.finish l :: ts)).Sound) :
    (s.abandon l).Bares (endings ts) (s'.abandon l) := by
  have hmem : l ∈ endings (.finish l :: ts) := mem_finishing_finish s l ts
  obtain ⟨b, hb⟩ := hL.finishing l hmem
  have hb₀ : s.heap.blocks.get? l = some b := hb
  have hheld : b.isHeld (l ∈ endings (.finish l :: ts)) := by simp [Block.isHeld, hmem]
  have hb' := hs.heap.get?_of_held hb hheld
  rw [State.abandon, State.abandon, Heap.modifyBlock_eq_setBlock _ hb₀,
    Heap.modifyBlock_eq_setBlock _ hb']
  refine hs.withHeap (hs.heap.setBlock hb hheld (fun l' hne => ?_) ?_)
  · simp [endings, Task.finishing, Ne.symm hne]
  · simp [Block.isHeld]

/-- A resource is dropped, and so are the owners that it held. -/
theorem destroy (hs : s.Bares fin s') (r : Nat) : (s.destroy r).1.Bares fin (s'.destroy r).1 ∧
    Tasks.Bares (s.destroy r).2 (s'.destroy r).2 := by
  have hresource := hs.heap.resources r
  cases hx : s.heap.resources.get? r with
  | none =>
    rw [hx, Option.map_none] at hresource
    simp only [State.destroy, hx, hresource]
    exact ⟨hs, .nil⟩
  | some x =>
    rw [hx, Option.map_some] at hresource
    have herase : Heap.Bares { s.heap with resources := s.heap.resources.erase r } fin
        { s'.heap with resources := s'.heap.resources.erase r } := by
      refine hs.heap.withResources rfl rfl ?_ fun r' => ?_
      · simp [hs.heap.next_resources]
      · simp only [Table.get?_erase, hs.heap.resources]
        split <;> rfl
    have hcontent : x.bare.content = x.content := rfl
    have hlinks : x.bare.links = x.links.filter Handle.isOwner := rfl
    simp only [State.destroy, hx, hresource, hcontent, hlinks]
    refine ⟨?_, .map_drop x.links⟩
    cases dropped x.content with
    | none => exact hs.withHeap herase
    | some e => exact (hs.record e).withHeap herase

end State.Bares

end SharedOwnership
