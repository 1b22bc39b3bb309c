import Mathlib.Data.Set.Finite.Basic
import SharedOwnership.Proofs.Ledger.Step

/-!
# The graph of owners

A resource that is there waits for the release action of its block to be started, or it is about to
be dropped. So between commands the blocks that were not released are the nodes of a graph, and the
handles that their resources hold are its edges.

## Main definitions

* `Heap.InCharge` — the resource that a block is to release.
* `Heap.Unreleased` — the nodes of the graph.
* `Heap.Holds` — its edges.
* `Machine.linked` — a machine with a small graph.

## Main results

* `Machine.exists_inCharge` — between commands every resource has a block that is to release it.
-/

namespace SharedOwnership

namespace Heap

/-- The block labelled `l` was not released, and the resource labelled `r` is what it is to
release. -/
def InCharge (heap : Heap) (l r : Nat) : Prop :=
  ∃ b, heap.blocks.get? l = some b ∧ b.action.isSome ∧ b.resource = some r

/-- The block labelled `l` is allocated, and its release action was not started. -/
def Unreleased (heap : Heap) (l : Nat) : Prop := ∃ b, heap.blocks.get? l = some b ∧ b.action.isSome

/-- The resource of the unreleased block labelled `l` holds a handle of kind `k` on the block
labelled `l'`. -/
def Holds (heap : Heap) (k : Kind) (l l' : Nat) : Prop :=
  ∃ r x h, heap.InCharge l r ∧ heap.resources.get? r = some x ∧ h ∈ x.links ∧ h.kind = k ∧
    h.block = some l'

variable {heap : Heap} {k : Kind} {l l' r : Nat}

theorem InCharge.unreleased (h : heap.InCharge l r) : heap.Unreleased l := by
  obtain ⟨b, hb, haction, -⟩ := h
  exact ⟨b, hb, haction⟩

theorem unreleased_iff {b : Block} (hb : heap.blocks.get? l = some b) :
    heap.Unreleased l ↔ b.action.isSome := by
  refine ⟨?_, fun haction => ⟨b, hb, haction⟩⟩
  rintro ⟨c, hc, haction⟩
  obtain rfl : b = c := Option.some.inj (hb.symm.trans hc)
  exact haction

theorem Holds.unreleased (h : heap.Holds k l l') : heap.Unreleased l := by
  obtain ⟨r, -, -, hcharge, -⟩ := h
  exact hcharge.unreleased

/-- The blocks that were not released are among those that labels were handed out for. -/
theorem finite_unreleased (heap : Heap) : {l | heap.Unreleased l}.Finite := by
  refine (Set.finite_lt_nat heap.blocks.next).subset ?_
  rintro l ⟨b, hb, -⟩
  exact Table.lt_next_of_get? hb

/-- The handles that resources hold. -/
theorem mem_links {h : Handle} :
    h ∈ heap.links ↔ ∃ r x, heap.resources.get? r = some x ∧ h ∈ x.links := by
  simp only [links, Multiset.mem_coe, List.mem_flatMap, Table.mem_values]
  constructor
  · rintro ⟨x, ⟨r, hx⟩, hh⟩
    exact ⟨r, x, hx, hh⟩
  · rintro ⟨r, x, hx, hh⟩
    exact ⟨x, ⟨r, hx⟩, hh⟩

end Heap

namespace Ledger

/-- The resource labelled `r` is about to be dropped, or a block is to release it. -/
def Kept (L : Ledger) (r : Nat) : Prop := r ∈ L.doomed ∨ ∃ l, L.heap.InCharge l r

variable {p : Command → Prop} {L L' : Ledger} {r : Nat}

/-- Entries leave every block in charge of its resource. -/
theorem Keeps.kept (h : Keeps p L L') (hdoomed : r ∈ L.doomed → r ∈ L'.doomed) (hr : L.Kept r) :
    L'.Kept r := by
  rcases hr with hr | ⟨l, b, hb, haction, hres⟩
  · exact .inl (hdoomed hr)
  · obtain ⟨b', hb', halike⟩ := h.stays l b hb
    exact .inr ⟨l, b', hb', halike.action ▸ haction, halike.resource.trans hres⟩

/-- Every resource is about to be dropped, or a block is to release it. -/
def KeepsAll (L : Ledger) : Prop := ∀ r x, L.heap.resources.get? r = some x → L.Kept r

theorem Entry.keepsAll (h : Entry p L L') (hL : L.KeepsAll) : L'.KeepsAll := by
  have hkeeps := h.keeps
  intro r x hx
  cases h with
  | adopt ty c layout action hp =>
    rw [Heap.resources_allocate] at hx
    rcases Nat.lt_or_ge r L.heap.resources.next with hlt | hle
    · rw [Heap.get?_resources_keep _ _ hlt] at hx
      exact hkeeps.kept id (hL r x hx)
    · -- the resource is the one that the new block is made for
      cases c with
      | none => cases (Table.get?_of_next_le hle).symm.trans hx
      | some c =>
        have hlt := Table.lt_next_of_get? hx
        simp only [Option.map_some, Heap.keep, Heap.store, Table.next_insert] at hlt
        obtain rfl : r = L.heap.resources.next := by omega
        exact .inr ⟨_, _, (Heap.get?_allocate ..).trans (if_pos rfl), rfl, rfl⟩
  | orphan c =>
    simp only [Heap.store, Table.get?_insert] at hx
    split at hx
    · next heq => exact .inl (heq ▸ Multiset.mem_cons_self ..)
    · exact hkeeps.kept Multiset.mem_cons_of_mem (hL r x hx)
  | relink r' f hf =>
    simp only [Heap.modifyResource, Table.get?_modify] at hx
    split at hx
    · obtain ⟨x', hx', -⟩ := Option.map_eq_some_iff.1 hx
      exact hkeeps.kept id (hL r x' hx')
    · exact hkeeps.kept id (hL r x hx)
  | destroy r' rs hdoomed =>
    simp only [Table.get?_erase] at hx
    split at hx
    · cases hx
    · next hne =>
      refine hkeeps.kept (fun hr => ?_) (hL r x hx)
      rw [hdoomed] at hr
      exact (Multiset.mem_cons.1 hr).resolve_left (Ne.symm hne)
  | note | addEmpty | dropEmpty | share | overflow | promote | letGo | lend | takeBack | repoint =>
    exact hkeeps.kept id (hL r x hx)

theorem Entries.keepsAll (h : Entries p L L') (hL : L.KeepsAll) : L'.KeepsAll := by
  induction h with
  | refl => exact hL
  | tail _ h ih => exact h.keepsAll ih

/-- A block that is released gives its resource over to be dropped. -/
theorem Turn.keepsAll (hL : L.Sound) (h : Turn L L') (hall : L.KeepsAll) : L'.KeepsAll := by
  -- a block that takes another turn stays in charge, unless it is freed, when it was in charge of
  -- nothing
  have hset : ∀ l b b' r, L.heap.blocks.get? l = some b → b'.action = b.action →
      b'.resource = b.resource → L.Kept r →
      r ∈ L.doomed ∨ ∃ l', (L.heap.setBlock l b').InCharge l' r := by
    rintro l b b' r hb haction hres (hr | ⟨l', c, hc, hc', hr⟩)
    · exact .inl hr
    · by_cases heq : l = l'
      · obtain rfl : b = c := Option.some.inj (hb.symm.trans (heq ▸ hc))
        exact .inr ⟨l', b', by rw [Heap.get?_setBlock hb, if_pos heq], haction ▸ hc', hres ▸ hr⟩
      · exact .inr ⟨l', c, by rw [Heap.get?_setBlock hb, if_neg heq, hc], hc', hr⟩
  have herase : ∀ l b r, L.heap.blocks.get? l = some b → b.action = none → L.Kept r →
      r ∈ L.doomed ∨ ∃ l', Heap.InCharge { L.heap with blocks := L.heap.blocks.erase l } l' r := by
    rintro l b r hb hnone (hr | ⟨l', c, hc, hc', hr⟩)
    · exact .inl hr
    · refine .inr ⟨l', c, ?_, hc', hr⟩
      rw [Table.get?_erase, if_neg, hc]
      rintro rfl
      obtain rfl : b = c := Option.some.inj (hb.symm.trans hc)
      simp [hnone] at hc'
  intro r x hx
  cases h with
  | release h hs l b hL' hk hl hb hc =>
    rcases hall r x hx with hr | ⟨l', c, hc, hc', hr⟩
    · exact .inl (Multiset.mem_add.2 (.inr hr))
    · by_cases heq : l = l'
      · obtain rfl : b = c := Option.some.inj (hb.symm.trans (heq ▸ hc))
        exact .inl (Multiset.mem_add.2 (.inl (by simp [hr])))
      · exact .inr ⟨l', c, by rw [Heap.get?_setBlock hb, if_neg heq, hc], hc', hr⟩
  | finish l ls b hL' hb hc => exact hset l b _ r hb rfl rfl (hall r x hx)
  | abandon l ls b hL' hb => exact hset l b _ r hb rfl rfl (hall r x hx)
  | free h hs l b hL' hk hl hb hc =>
    have hh : h ∈ L.handles := hL' ▸ Multiset.mem_cons_self ..
    exact herase l b r hb (hL.of_last_observer hh hk hl hb hc).1 (hall r x hx)
  | finishFree l ls b hL' hb hc =>
    have hmem : l ∈ L.finishing := hL' ▸ Multiset.mem_cons_self ..
    exact herase l b r hb (hL.of_mem_finishing hmem hb).1 (hall r x hx)

theorem Step.keepsAll (hL : L.Sound) (h : Step p L L') (hall : L.KeepsAll) : L'.KeepsAll := by
  cases h with
  | entries h => exact h.keepsAll hall
  | turn M h h' => exact h'.keepsAll (h.keepsAll hL hall)

end Ledger

namespace Machine

variable {m : Machine} {l r : Nat} {x : Resource} {h : Handle}

theorem kept_of_reachable (hm : m.Reachable) (hx : m.state.heap.resources.get? r = some x) :
    m.ledger.Kept r := by
  have hall : m.ledger.KeepsAll := by
    refine hm.ledger_induction (fun r x hx => ?_) fun L L' hL hstep hall => hstep.keepsAll hL hall
    cases (Table.get?_empty r).symm.trans hx
  exact hall r x hx

/-! ### Between commands -/

/-- Between commands a block is to release the resource. -/
theorem exists_inCharge (hm : m.Reachable) (hstack : m.stack = [])
    (hx : m.state.heap.resources.get? r = some x) : ∃ l, m.state.heap.InCharge l r := by
  refine (kept_of_reachable hm hx).resolve_left fun hr => ?_
  simp [ledger, State.ledger, hstack] at hr

/-- Between commands a handle is in a slot, or a resource holds it. -/
theorem mem_handles_of_stack_eq_nil (hstack : m.stack = []) :
    h ∈ m.handles ↔ (∃ name, m.state.slots.get? name = some h) ∨
      ∃ r x, m.state.heap.resources.get? r = some x ∧ h ∈ x.links := by
  simp [handles, hstack, Slots.mem_handles, Heap.mem_links]

/-- Between commands a handle is in a slot, or the resource of an unreleased block holds it. -/
theorem exists_holds (hm : m.Reachable) (hstack : m.stack = []) (hh : h ∈ m.handles)
    (hl : h.block = some l) : (∃ name, m.state.slots.get? name = some h) ∨
      ∃ l', m.state.heap.Holds h.kind l' l := by
  rcases (mem_handles_of_stack_eq_nil hstack).1 hh with hslot | ⟨r, x, hx, hlink⟩
  · exact .inl hslot
  · obtain ⟨l', hcharge⟩ := exists_inCharge hm hstack hx
    exact .inr ⟨l', r, x, h, hcharge, hx, hlink, rfl, hl⟩

/-! ### A graph -/

/-- Two nodes, of which the first one owns the second one, and the second one holds a handle of kind
`k` on the first one and an observer of a text. -/
def linked (k : Kind) : Machine :=
  performAll {}
    [.adopt "first" .node (some ⟨.node 1, rfl⟩) .abort ⟨.none, false, false⟩ [],
      .adopt "second" .node (some ⟨.node 2, rfl⟩) .abort ⟨.none, false, false⟩ [],
      .create "text" .text ⟨.text "kept", rfl⟩ .abort false,
      match k with
      | .strong => .clone "first" "back"
      | .weak => .downgrade "first" "back",
      .clone "second" "forth", .downgrade "text" "observer",
      .link "first" "forth", .link "second" "back", .link "second" "observer"]

theorem reachable_linked (k : Kind) : (linked k).Reachable :=
  reachableBy_performAll .refl (Command.allIn_of_forall (fun _ => trivial) _)

end Machine

end SharedOwnership
