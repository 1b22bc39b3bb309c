import Mathlib.Algebra.BigOperators.Group.Finset.Basic
import Mathlib.Order.FixedPoints
import Mathlib.Order.CompletePartialOrder
import SharedOwnership.Proofs.Expiry
import SharedOwnership.Proofs.Ownership.Cascade

/-!
# What goes is a least fixpoint

Drop handles in slots one after the other, where release actions only drop their resources. Then a
block is released just if it has to be: its owners are all among the handles that are dropped or
among those that released resources hold. So what goes depends on which handles are dropped, but not
on their order, however the blocks own each other.

## Main definitions

* `State.unowned` — what has no owner left once some blocks are released.
* `State.cascade` — the blocks that are released, as a least fixpoint.
* `State.swept` — the handles that go.
* `Machine.Cascades` — what becomes of a machine.

## Main results

* `Machine.cascades_of_reachable` — that becomes of every machine between commands.
-/

namespace SharedOwnership

/-- Summing over the values of a table is summing over the labels. -/
theorem Table.sum_values {α β : Type} [AddCommMonoid β] (f : α → β) (t : Table α) :
    (t.values.map f).sum = ∑ l ∈ Finset.range t.next, ((t.get? l).map f).getD 0 := by
  obtain ⟨entries⟩ := t
  induction entries using List.reverseRecOn with
  | nil => simp [values, next]
  | append_singleton entries a? ih =>
    have hlast : (Table.mk (entries ++ [a?])).get? (entries.length + 1) = a? := by simp
    have hinit : ∀ l ∈ Finset.range (entries.length + 1),
        (Table.mk (entries ++ [a?])).get? l = (Table.mk entries).get? l := by
      intro l hl
      rcases l with _ | i
      · rfl
      · have hi : i < entries.length := by simpa using hl
        simp [List.getElem?_append_left hi]
    have hnext : (Table.mk (entries ++ [a?])).next = entries.length + 1 + 1 := by simp [next]
    rw [hnext, Finset.sum_range_succ, hlast, Finset.sum_congr rfl fun l hl => by rw [hinit l hl]]
    have hvalues :
        (Table.mk (entries ++ [a?])).values = (Table.mk entries).values ++ a?.toList := by
      cases a? <;> simp [values]
    rw [hvalues, List.map_append, List.sum_append, ih]
    cases a? <;> simp [next]

namespace Heap

/-- A block that was made was released unless it is unreleased. -/
theorem started_eq (heap : Heap) (l : Nat) :
    heap.started l = (heap.born l && open Classical in decide (¬ heap.Unreleased l)) := by
  cases hb : heap.blocks.get? l with
  | some b =>
    rw [started_of_get? hb, born_of_get? hb, unreleased_iff hb]
    cases b.action <;> simp
  | none =>
    have hreleased : ¬ heap.Unreleased l := fun ⟨b, hsome, _⟩ => by cases hb.symm.trans hsome
    rw [started_of_get?_eq_none hb, ← born]
    simp [hreleased]

/-- The handles that the resource labelled `r` holds. -/
def linksOf (heap : Heap) (r : Nat) : Multiset Handle :=
  ((heap.resources.get? r).map fun x => (x.links : Multiset Handle)).getD 0

theorem links_eq_sum (heap : Heap) :
    heap.links = ∑ r ∈ Finset.range heap.resources.next, heap.linksOf r := by
  have hflat : ∀ xs : List Resource, ((xs.flatMap Resource.links : List Handle) : Multiset Handle) =
      (xs.map fun x => (x.links : Multiset Handle)).sum := by
    intro xs
    induction xs with
    | nil => rfl
    | cons x xs ih =>
      rw [List.flatMap_cons, ← Multiset.coe_add, ih, List.map_cons, List.sum_cons]
  exact (hflat heap.resources.values).trans (Table.sum_values _ heap.resources)

end Heap

/-- Handles in slots that are emptied are in none of the others. -/
theorem Slots.handles_of_filter {slots slots' : Slots} {names : List String}
    (h : slots'.entries = slots.entries.filter fun e => e.1 ∉ names) :
    slots.handles = slots'.handles +
      ((slots.entries.filter fun e => e.1 ∈ names).map Prod.snd : List Handle) := by
  have hperm := List.filter_append_perm (fun e : String × Handle => decide (e.1 ∈ names))
    slots.entries
  rw [handles, handles, h, add_comm, Multiset.coe_add, ← List.map_append]
  refine (Multiset.coe_eq_coe.2 (hperm.map Prod.snd)).symm.trans ?_
  simp

/-! ### The fixpoint -/

namespace State

variable (s : State) (names : List String)

/-- The unreleased blocks that have no owner left when the handles in the slots `names` and those
that the resources of given blocks hold are dropped. -/
def unowned : Set Nat →o Set Nat where
  toFun X := {l | ∃ b, s.heap.blocks.get? l = some b ∧ b.action.isSome ∧ b.unheld .strong = 0 ∧
    (∀ name h, s.slots.get? name = some h → h.kind = .strong → h.block = some l → name ∈ names) ∧
    ∀ l', s.heap.Holds .strong l' l → l' ∈ X}
  monotone' := by
    rintro X Y hXY l ⟨b, hb, haction, hunheld, hslots, hlinks⟩
    exact ⟨b, hb, haction, hunheld, hslots, fun l' hl' => hXY (hlinks l' hl')⟩

/-- The least set of unreleased blocks that contains every block whose owners are all in the slots
`names` or in resources of blocks in the set, if no strong unit of it is unheld. -/
def cascade : Set Nat := (s.unowned names).lfp

open Classical in
/-- The handles in the slots `names` and those that the resources of the blocks in the cascade
hold. -/
noncomputable def swept : Multiset Handle :=
  ((s.slots.entries.filter fun e => e.1 ∈ names).map Prod.snd : List Handle) +
    ∑ r ∈ Finset.range s.heap.resources.next with ∃ l ∈ s.cascade names, s.heap.InCharge l r,
      s.heap.linksOf r

end State

/-! ### Blocks that are freed -/

/-- When a block is freed, no weak unit of it is unheld, and its release action did not unwind. -/
theorem Machine.Frees.unheld {m : Machine} {l : Nat} {b : Block} (hm : m.Reachable)
    (hf : m.Frees l) (hb : m.state.heap.blocks.get? l = some b) :
    b.unheld .weak = 0 ∧ b.unwound = false := by
  obtain ⟨hL, hobeys⟩ := ReachableBy.sound_obeys hm
  obtain ⟨c, hends⟩ := hf.ends hL hobeys
  obtain rfl : b = c := Option.some.inj (hb.symm.trans hends.block)
  have hweak := (hL.accounts l b hb).weak
  have hone := hends.count
  rcases hends.cause with ⟨h, rest, hstack, hk, hl⟩ | ⟨-, rest, hstack⟩
  · have hh : h ∈ m.handles := mem_handles_of_stack hstack List.mem_cons_self
    have hpos := holders_pos hh hk hl
    rw [handles_ledger] at hweak
    exact ⟨by omega, (hL.of_last_observer hh hk hl hb hone).2.2⟩
  · have hmem : l ∈ m.ledger.finishing := by
      simp [ledger, State.ledger, hstack, Task.finishing]
    obtain ⟨-, hcount, hunwound, -⟩ := hL.of_mem_finishing hmem hb
    have hcommon : 1 ≤ m.ledger.common l b := by
      simp only [Ledger.common, hcount]
      omega
    exact ⟨by omega, hunwound⟩

namespace Machine

/-! ### The way to the fixpoint -/

/-- What has become of the state `s₀` when the slots `names` are emptied: no block was released
outside the set `X`. -/
structure Cascade (s₀ : State) (names : List String) (X : Set Nat) (m : Machine) : Prop where
  reachable : m.Reachable
  winding : m.Winding
  heap : s₀.heap.Fades m.state.heap
  slots : m.state.slots.entries = s₀.slots.entries.filter fun e => e.1 ∉ names
  freed : ∀ l b, s₀.heap.blocks.get? l = some b → m.state.heap.blocks.get? l = none →
    b.unheld .weak = 0 ∧ b.unwound = false
  released : ∀ l, s₀.heap.Unreleased l → ¬ m.state.heap.Unreleased l → l ∈ X

variable {s₀ : State} {names all : List String} {X : Set Nat} {m n : Machine} {l r : Nat}

/-- A block that a step releases has no owner left. -/
theorem Starts.not_owner (hm : m.Reachable) (hs : m.Starts l) {h : Handle}
    (hh : h ∈ m.step.handles) (hk : h.kind = .strong) : h.block ≠ some l := by
  have hL : m.step.ledger.Sound := ReachableBy.sound (hm.leads (leads_step m))
  obtain ⟨-, b', -, -, hb', hnone⟩ := hs
  intro hl
  have hsome := hL.isSome_action hh hk hl hb'
  simp [hnone] at hsome

/-- Handles in slots and in resources are handles. -/
theorem mem_handles_of_slot {name : String} {h : Handle} (hg : m.state.slots.get? name = some h) :
    h ∈ m.handles := by
  have hmem : h ∈ m.state.slots.handles := Slots.mem_handles.2 ⟨name, hg⟩
  simp [handles, hmem]

theorem mem_handles_of_link {x : Resource} {h : Handle}
    (hx : m.state.heap.resources.get? r = some x) (hh : h ∈ x.links) : h ∈ m.handles := by
  have hmem : h ∈ m.state.heap.links := Heap.mem_links.2 ⟨r, x, hx, hh⟩
  simp [handles, hmem]

/-- A resource that is gone belongs to a block that was released. -/
theorem Cascade.not_unreleased (hm : Cascade s₀ names X m) (hcharge : s₀.heap.InCharge l r)
    (hnone : m.state.heap.resources.get? r = none) : ¬ m.state.heap.Unreleased l := by
  intro hl
  have hL : m.ledger.Sound := ReachableBy.sound hm.reachable
  obtain ⟨b, hb, haction, hr⟩ := hm.heap.inCharge_of_unreleased hcharge hl
  obtain ⟨⟨x, hx⟩, -⟩ := hL.stays l b r hb haction hr
  cases hnone.symm.trans hx

/-- A block that a step releases had to be released: its owners had gone. -/
theorem Cascade.mem_unowned (hm : Cascade s₀ names X m) (hstep : s₀.heap.Fades m.step.state.heap)
    (hslots : m.step.state.slots = m.state.slots) (hnames : names ⊆ all)
    (hl : s₀.heap.Unreleased l) (hs : m.Starts l) : l ∈ s₀.unowned all X := by
  obtain ⟨hL, hobeys⟩ := ReachableBy.sound_obeys hm.reachable
  have hL' : m.step.ledger.Sound := ReachableBy.sound (hm.reachable.leads (leads_step m))
  have hresources : m.step.state.heap.resources = m.state.heap.resources := by
    obtain ⟨b, action, rest, hreleases⟩ := hs.releases hL hobeys
    rw [hreleases.heap, Heap.resources_setBlock]
  have hgone : ∀ h ∈ m.step.handles, h.kind = .strong → h.block ≠ some l :=
    fun h hh hk => hs.not_owner hm.reachable hh hk
  obtain ⟨b₀, hb₀, haction₀⟩ := hl
  refine ⟨b₀, hb₀, haction₀, ?_, fun name h hg hk hl => ?_, fun l' hholds => ?_⟩
  · obtain ⟨-, b', -, -, hb', hnone⟩ := hs
    have hfades := hstep.block hb₀ hb'
    have hacc := hL'.accounts l b' hb'
    have hstrong := hacc.strong
    have hzero := mt hacc.live.2 (by simp [hnone])
    rw [← hfades.unheld]
    omega
  · by_contra hname
    have hnot : name ∉ names := fun hmem => hname (hnames hmem)
    have hg' : m.step.state.slots.get? name = some h := by
      rw [hslots, Slots.get?_eq_some, hm.slots]
      exact List.mem_filter.2 ⟨Slots.get?_eq_some.1 hg, by simpa using hnot⟩
    exact hgone h (mem_handles_of_slot hg') hk hl
  · have hl' := hholds.unreleased
    obtain ⟨r, x, h, hcharge, hx, hh, hk, hl⟩ := hholds
    refine hm.released l' hl' (hm.not_unreleased hcharge ?_)
    -- the resource that held the owner is gone, or the owner would still be there
    refine (hm.heap.resources r).resolve_left fun hsame => ?_
    have hx' : m.step.state.heap.resources.get? r = some x := by rw [hresources, hsame, hx]
    exact hgone h (mem_handles_of_link hx' hh) hk hl

theorem Cascade.step (hX : s₀.unowned all X ⊆ X) (hnames : names ⊆ all)
    (hm : Cascade s₀ names X m) (hhalted : m.halted = false) :
    Cascade s₀ names X m.step ∧ m.step.weight < m.weight := by
  have hL : m.ledger.Sound := ReachableBy.sound hm.reachable
  have hwinds := hm.winding.winds_step hL hhalted
  have hheap := hm.heap.trans hwinds.heap
  refine ⟨⟨hm.reachable.leads (leads_step m), hm.winding.of_winds hwinds, hheap, ?_,
    fun l b hb hnone => ?_, fun l hl hreleased => ?_⟩, hwinds.weight⟩
  · rw [hwinds.slots]
    exact hm.slots
  · cases hb' : m.state.heap.blocks.get? l with
    | none => exact hm.freed l b hb hb'
    | some b' =>
      have hfades := hm.heap.block hb hb'
      have hf : m.Frees l := ⟨b', hb', hnone⟩
      rw [← hfades.unheld, ← hfades.unwound]
      exact hf.unheld hm.reachable hb'
  · by_cases hunreleased : m.state.heap.Unreleased l
    · obtain ⟨b, hb, haction⟩ := hunreleased
      refine hX (hm.mem_unowned hheap hwinds.slots hnames hl ?_)
      cases hb' : m.step.state.heap.blocks.get? l with
      | none =>
        have hf : m.Frees l := ⟨b, hb, hb'⟩
        simp [(hf.over hm.reachable hb).2.1] at haction
      | some b' =>
        refine ⟨b, b', hb, haction, hb', ?_⟩
        cases haction' : b'.action with
        | none => rfl
        | some action => exact absurd ⟨b', hb', by simp [haction']⟩ hreleased
    · exact hm.released l hl hunreleased

/-- A further slot is emptied; the handle that was there is what is to be dropped. -/
theorem Cascade.begin_drop (hm : Cascade s₀ names X m) (hstack : m.stack = []) (name : String) :
    Cascade s₀ (names ++ [name]) X (Machine.step ⟨m.state, .running, [.perform (.drop name)]⟩) ∧
      (Machine.step ⟨m.state, .running, [.perform (.drop name)]⟩).weight <
        (Machine.mk m.state .running [.perform (.drop name)]).weight := by
  have hstart : Machine.Reachable ⟨m.state, .running, [.perform (.drop name)]⟩ := by
    have hmove : Move (fun _ => True) m { m with stack := [.perform (.drop name)] } :=
      .command (.drop name) trivial hm.winding.control hstack
    rw [hm.winding.control] at hmove
    exact hm.reachable.tail hmove
  have hfilter : s₀.slots.entries.filter (fun e => e.1 ∉ names ++ [name]) =
      (m.state.slots.erase name).entries := by
    simp only [Slots.erase, hm.slots, List.filter_filter]
    refine List.filter_congr fun e _ => ?_
    simp [and_comm]
  have hreachable := hstart.leads (leads_step _)
  cases hg : m.state.slots.get? name with
  | none =>
    have hstep : Machine.step ⟨m.state, .running, [.perform (.drop name)]⟩ =
        ⟨m.state, .running, [.settle [] (.answer (.refused (.noHandle name)))]⟩ := by
      simp [Machine.step, advance, run, State.begin, State.plan, State.handle, hg, State.reply,
        bind, Except.bind]
    rw [hstep] at hreachable ⊢
    refine ⟨⟨hreachable, ⟨rfl, by simp [Task.isWinding], hm.winding.plain⟩, hm.heap, ?_,
      hm.freed, hm.released⟩, ?_⟩
    · rw [hfilter, Slots.entries_erase_of_vacant hg]
    · simp [weight, Task.weight, Pending.weight, Command.weight, commandWeight]
  | some h =>
    have hstep : Machine.step ⟨m.state, .running, [.perform (.drop name)]⟩ =
        ⟨m.state.vacate name, .running, [.drop h, .settle [] (.answer .done)]⟩ := by
      simp [Machine.step, advance, run, State.begin, State.plan, State.handle, hg, bind,
        Except.bind, pure, Except.pure]
    rw [hstep] at hreachable ⊢
    refine ⟨⟨hreachable, ⟨rfl, by simp [Task.isWinding], hm.winding.plain⟩, hm.heap, hfilter.symm,
      hm.freed, hm.released⟩, ?_⟩
    have hlength := (Slots.perm_erase hg).length_eq
    simp [weight, State.weight, State.vacate, Task.weight, Pending.weight, Command.weight,
      commandWeight, handleWeight, hlength]
    omega

/-- The slots of further names are emptied one after the other, and each teardown comes to its
end. -/
theorem Cascade.performAll (hX : s₀.unowned all X ⊆ X) (hm : Cascade s₀ names X m)
    (hstack : m.stack = []) {further : List String} (hnames : names ++ further ⊆ all) :
    Cascade s₀ (names ++ further) X (m.performAll (further.map .drop)) ∧
      (m.performAll (further.map .drop)).stack = [] := by
  induction further generalizing m names with
  | nil => simpa [Machine.performAll] using ⟨hm, hstack⟩
  | cons name further ih =>
    have hsub : names ++ [name] ⊆ all := fun e he => hnames (by simp at he ⊢; tauto)
    obtain ⟨hbegun, hlt⟩ := hm.begin_drop hstack name
    obtain ⟨hhalted, hend⟩ := halted_finish (p := Cascade s₀ (names ++ [name]) X)
      (fun k hk => hk.step hX hsub) rfl hbegun hlt
    have hempty : (m.state.perform (.drop name)).stack = [] := by
      simpa [halted, hend.winding.control, State.perform] using hhalted
    rw [List.map_cons, Machine.performAll, if_pos ⟨hm.winding.control, by simp [hstack]⟩,
      List.append_cons]
    exact ih hend hempty (by simpa using hnames)

/-! ### Where it ends -/

/-- What becomes of the machine `m` when the slots `names` are emptied. -/
structure Cascades (m : Machine) (names : List String) (n : Machine) : Prop where
  control : n.control = .running
  stack : n.stack = []
  slots : n.state.slots.entries = m.state.slots.entries.filter fun e => e.1 ∉ names
  /-- Just the blocks in the cascade are released, and each once. -/
  releasing : ∀ l, n.state.trace.count (.releasing l) = m.state.trace.count (.releasing l) +
    open Classical in if l ∈ m.state.cascade names then 1 else 0
  /-- Their resources are dropped, and the others stay as they are. -/
  resources : ∀ r, n.state.heap.resources.get? r = open Classical in
    if ∃ l ∈ m.state.cascade names, m.state.heap.InCharge l r then none
    else m.state.heap.resources.get? r
  /-- Just those blocks are freed that have no unit left: all their strong units go, and all their
  observers are in the slots or in resources that are dropped. -/
  freed : ∀ l b, m.state.heap.blocks.get? l = some b → (n.state.heap.blocks.get? l = none ↔
    b.counts.strong = holders .strong l (m.state.swept names) ∧
      b.unheld .weak = 0 ∧ b.unwound = false ∧
      (∀ name h, m.state.slots.get? name = some h → h.kind = .weak → h.block = some l →
        name ∈ names) ∧
      ∀ l', m.state.heap.Holds .weak l' l → l' ∈ m.state.cascade names)
  deallocated : ∀ l, n.state.trace.countP (Event.frees l) =
    m.state.trace.countP (Event.frees l) +
      if (m.state.heap.blocks.get? l).isSome ∧ n.state.heap.blocks.get? l = none then 1 else 0
  /-- The counters of the other blocks go down by the handles that go, and by the weak unit of the
  owners if the block is released. -/
  counts : ∀ l b', n.state.heap.blocks.get? l = some b' →
    ∃ b, m.state.heap.blocks.get? l = some b ∧
      b'.counts.strong + holders .strong l (m.state.swept names) = b.counts.strong ∧
      b'.counts.weak + holders .weak l (m.state.swept names) +
        (open Classical in if l ∈ m.state.cascade names then 1 else 0) = b.counts.weak

namespace Cascade

variable {b b' : Block}

/-- What has to be released is released. -/
theorem not_unreleased_of_mem (hn : Cascade m.state names (m.state.cascade names) n)
    (hstack' : n.stack = []) (hl : l ∈ m.state.cascade names) :
    m.state.heap.Unreleased l ∧ ¬ n.state.heap.Unreleased l := by
  have hL : n.ledger.Sound := ReachableBy.sound hn.reachable
  let fallen : Set Nat := {l | m.state.heap.Unreleased l ∧ ¬ n.state.heap.Unreleased l}
  have hclosed : m.state.unowned names fallen ⊆ fallen := by
    rintro l ⟨b, hb, haction, hunheld, hslots, hlinks⟩
    refine ⟨⟨b, hb, haction⟩, ?_⟩
    rintro ⟨b', hb', haction'⟩
    -- a block that was not released has an owner, which would have gone
    have hacc := hL.accounts l b' hb'
    have hpos := hacc.live.1 haction'
    have hstrong := hacc.strong
    have hfades := hn.heap.block hb hb'
    rw [hfades.unheld, hunheld, handles_ledger] at hstrong
    have hholders : 0 < holders .strong l n.handles := by omega
    obtain ⟨h, hh, hk, hl⟩ := Multiset.countP_pos.1 hholders
    rcases exists_holds hn.reachable hstack' hh hl with ⟨name, hg⟩ | ⟨l', hholds⟩
    · rw [Slots.get?_eq_some, hn.slots, List.mem_filter] at hg
      have hname := hslots name h (Slots.get?_eq_some.2 hg.1) hk hl
      simp [hname] at hg
    · rw [hk] at hholds
      exact (hlinks l' (hn.heap.holds hholds)).2 hholds.unreleased
  exact OrderHom.lfp_le _ hclosed hl

/-- A block is freed once when it goes. -/
theorem deallocated_eq (hm : m.Reachable)
    (hn : Cascade m.state names (m.state.cascade names) n) (l : Nat) :
    n.state.trace.countP (Event.frees l) = m.state.trace.countP (Event.frees l) +
      if (m.state.heap.blocks.get? l).isSome ∧ n.state.heap.blocks.get? l = none then 1 else 0 := by
  have htrace : n.state.trace.countP (Event.frees l) = (n.state.heap.freed l).toNat :=
    (chronicle_of_reachable hn.reachable).deallocated l
  have htrace' : m.state.trace.countP (Event.frees l) = (m.state.heap.freed l).toNat :=
    (chronicle_of_reachable hm).deallocated l
  rw [htrace, htrace', Heap.freed, Heap.freed, hn.heap.next_blocks]
  cases hb : m.state.heap.blocks.get? l with
  | none => simp [hn.heap.get?_blocks_eq_none hb]
  | some b =>
    have hborn := Heap.born_iff.1 (Heap.born_of_get? hb)
    cases n.state.heap.blocks.get? l <;> simp [hborn]

section rest

variable (hm : m.Reachable) (hstack : m.stack = [])
  (hn : Cascade m.state names (m.state.cascade names) n) (hstack' : n.stack = [])

include hn hstack'

theorem mem_iff : l ∈ m.state.cascade names ↔
    m.state.heap.Unreleased l ∧ ¬ n.state.heap.Unreleased l :=
  ⟨hn.not_unreleased_of_mem hstack', fun h => hn.released l h.1 h.2⟩

/-- The release action of a block was started meanwhile just if the block is in the cascade. -/
theorem action_eq (hb : m.state.heap.blocks.get? l = some b)
    (hb' : n.state.heap.blocks.get? l = some b') : b.action.isSome.toNat =
      b'.action.isSome.toNat + open Classical in if l ∈ m.state.cascade names then 1 else 0 := by
  have hmono : n.state.heap.Unreleased l → m.state.heap.Unreleased l := hn.heap.unreleased
  rw [Heap.unreleased_iff hb, Heap.unreleased_iff hb'] at hmono
  rw [hn.mem_iff hstack', Heap.unreleased_iff hb, Heap.unreleased_iff hb']
  cases hsome : b.action.isSome <;> cases hsome' : b'.action.isSome <;> simp_all

theorem started_eq (l : Nat) : (n.state.heap.started l).toNat = (m.state.heap.started l).toNat +
    open Classical in if l ∈ m.state.cascade names then 1 else 0 := by
  have hborn : n.state.heap.born l = m.state.heap.born l := by
    rw [Heap.born, Heap.born, hn.heap.next_blocks]
  have hmono : n.state.heap.Unreleased l → m.state.heap.Unreleased l := hn.heap.unreleased
  rw [hn.mem_iff hstack', Heap.started_eq, Heap.started_eq, hborn]
  by_cases hl : m.state.heap.Unreleased l
  · have hborn' : m.state.heap.born l := by
      obtain ⟨b, hb, -⟩ := hl
      exact Heap.born_of_get? hb
    by_cases hl' : n.state.heap.Unreleased l <;> simp [hl, hl', hborn']
  · simp [hl, mt hmono hl]

include hm hstack

theorem get?_resources_eq (r : Nat) : n.state.heap.resources.get? r = open Classical in
    if ∃ l ∈ m.state.cascade names, m.state.heap.InCharge l r then none
    else m.state.heap.resources.get? r := by
  have hL : m.ledger.Sound := ReachableBy.sound hm
  split
  · next hcharge =>
    obtain ⟨l, hl, b, hb, -, hr⟩ := hcharge
    refine Option.eq_none_iff_forall_ne_some.2 fun x hx => ?_
    obtain ⟨l', hcharge'⟩ := exists_inCharge hn.reachable hstack' hx
    obtain ⟨b', hb', -, hr'⟩ := hn.heap.inCharge hcharge'
    obtain rfl := hL.unshared l l' b b' r hb hb' hr hr'
    exact (hn.not_unreleased_of_mem hstack' hl).2 hcharge'.unreleased
  · next hnone =>
    refine (hn.heap.resources r).elim id fun hgone => ?_
    rw [hgone, eq_comm, Option.eq_none_iff_forall_ne_some]
    intro x hx
    obtain ⟨l, hcharge⟩ := exists_inCharge hm hstack hx
    refine hnone ⟨l, ?_, hcharge⟩
    exact hn.released l hcharge.unreleased (hn.not_unreleased hcharge hgone)

/-- The handles that are left and those that are swept away are all there were. -/
theorem handles_add_swept : n.handles + m.state.swept names = m.handles := by
  classical
  have hlinks : m.state.heap.links = n.state.heap.links +
      ∑ r ∈ Finset.range m.state.heap.resources.next with
        ∃ l ∈ m.state.cascade names, m.state.heap.InCharge l r, m.state.heap.linksOf r := by
    rw [Heap.links_eq_sum, Heap.links_eq_sum, hn.heap.next_resources, Finset.sum_filter,
      ← Finset.sum_add_distrib]
    refine Finset.sum_congr rfl fun r _ => ?_
    rw [Heap.linksOf, Heap.linksOf, hn.get?_resources_eq hm hstack hstack']
    split <;> simp
  simp only [handles, hstack, hstack', hlinks, Slots.handles_of_filter hn.slots, State.swept]
  abel

theorem holders_add_swept (k : Kind) (l : Nat) : holders k l n.handles +
    holders k l (m.state.swept names) = holders k l m.handles := by
  rw [← hn.handles_add_swept hm hstack hstack']
  exact (Multiset.countP_add ..).symm

/-- The counters of a block that is left go down by what goes. -/
theorem counts_eq (hb : m.state.heap.blocks.get? l = some b)
    (hb' : n.state.heap.blocks.get? l = some b') :
    b'.counts.strong + holders .strong l (m.state.swept names) = b.counts.strong ∧
      b'.counts.weak + holders .weak l (m.state.swept names) +
        (open Classical in if l ∈ m.state.cascade names then 1 else 0) = b.counts.weak := by
  have hL : m.ledger.Sound := ReachableBy.sound hm
  have hL' : n.ledger.Sound := ReachableBy.sound hn.reachable
  have hfades := hn.heap.block hb hb'
  have hstrong := hn.holders_add_swept hm hstack hstack' .strong l
  have hweak := hn.holders_add_swept hm hstack hstack' .weak l
  have hacc := hL.accounts l b hb
  have hacc' := hL'.accounts l b' hb'
  have haction := hn.action_eq hstack' hb hb'
  constructor
  · rw [hacc.strong, hacc'.strong, hfades.unheld, handles_ledger, handles_ledger]
    omega
  · have hcommon : m.ledger.common l b = b.action.isSome.toNat + b.unwound.toNat := by
      simp [Ledger.common, ledger, State.ledger, hstack]
    have hcommon' : n.ledger.common l b' = b'.action.isSome.toNat + b.unwound.toNat := by
      simp [Ledger.common, ledger, State.ledger, hstack', hfades.unwound]
    rw [hacc.weak, hacc'.weak, hfades.unheld, hcommon, hcommon', handles_ledger, handles_ledger]
    omega

/-- A block that is freed has no handle left, and no unit of it is unheld. -/
theorem of_freed (hb : m.state.heap.blocks.get? l = some b)
    (hnone : n.state.heap.blocks.get? l = none) :
    b.counts.strong = holders .strong l (m.state.swept names) ∧
      b.unheld .weak = 0 ∧ b.unwound = false ∧
      (∀ name h, m.state.slots.get? name = some h → h.kind = .weak → h.block = some l →
        name ∈ names) ∧
      ∀ l', m.state.heap.Holds .weak l' l → l' ∈ m.state.cascade names := by
  have hL : m.ledger.Sound := ReachableBy.sound hm
  have hL' : n.ledger.Sound := ReachableBy.sound hn.reachable
  have hgone : ∀ h ∈ n.handles, h.block ≠ some l := by
    intro h hh hl
    obtain ⟨b', hb'⟩ := hL'.exists_block hh hl
    cases hnone.symm.trans hb'
  obtain ⟨hunheld, hunwound⟩ := hn.freed l b hb hnone
  refine ⟨?_, hunheld, hunwound, fun name h hg hk hl => ?_, fun l' hholds => ?_⟩
  · have hacc := hL.accounts l b hb
    have hstrong := hacc.strong
    have hholders := hn.holders_add_swept hm hstack hstack' .strong l
    have hzero : holders .strong l n.handles = 0 :=
      Multiset.countP_eq_zero.2 fun h hh hhold => hgone h hh hhold.2
    rw [handles_ledger] at hstrong
    -- no strong unit is unheld, be the block one of the cascade or one that was released before
    have hunheld' : b.unheld .strong = 0 := by
      cases haction : b.action with
      | some action =>
        have hreleased : ¬ n.state.heap.Unreleased l := by
          rintro ⟨c, hc, -⟩
          cases hnone.symm.trans hc
        have hl := hn.released l ⟨b, hb, by simp [haction]⟩ hreleased
        rw [State.cascade, ← OrderHom.map_lfp] at hl
        obtain ⟨c, hc, -, hzero, -⟩ := hl
        obtain rfl : b = c := Option.some.inj (hb.symm.trans hc)
        exact hzero
      | none =>
        have hnot := mt hacc.live.2 (by simp [haction])
        omega
    omega
  · by_contra hname
    have hg' : n.state.slots.get? name = some h := by
      rw [Slots.get?_eq_some, hn.slots, List.mem_filter]
      exact ⟨Slots.get?_eq_some.1 hg, by simpa using hname⟩
    exact hgone h (mem_handles_of_slot hg') hl
  · have hl' := hholds.unreleased
    obtain ⟨r, x, h, hcharge, hx, hh, -, hl⟩ := hholds
    refine hn.released l' hl' (hn.not_unreleased hcharge ?_)
    refine (hn.heap.resources r).resolve_left fun hsame => ?_
    exact hgone h (mem_handles_of_link (hsame.trans hx) hh) hl

/-- A block without units is freed. -/
theorem freed_of (hb : m.state.heap.blocks.get? l = some b)
    (hstrong : b.counts.strong = holders .strong l (m.state.swept names))
    (hunheld : b.unheld .weak = 0) (hunwound : b.unwound = false)
    (hslots : ∀ name h, m.state.slots.get? name = some h → h.kind = .weak → h.block = some l →
      name ∈ names)
    (hlinks : ∀ l', m.state.heap.Holds .weak l' l → l' ∈ m.state.cascade names) :
    n.state.heap.blocks.get? l = none := by
  refine Option.eq_none_iff_forall_ne_some.2 fun b' hb' => ?_
  have hL : n.ledger.Sound := ReachableBy.sound hn.reachable
  have hfades := hn.heap.block hb hb'
  have hacc := hL.accounts l b' hb'
  have hpos := hacc.weak_pos
  have hweak := hacc.weak
  have hcounts := (hn.counts_eq hm hstack hstack' hb hb').1
  have haction : b'.action.isSome = false := Bool.eq_false_iff.2 (mt hacc.live.1 (by omega))
  have hcommon : n.ledger.common l b' = 0 := by
    simp [Ledger.common, ledger, State.ledger, hstack', haction, hfades.unwound, hunwound]
  rw [hfades.unheld, hunheld, hcommon, handles_ledger] at hweak
  have hholders : 0 < holders .weak l n.handles := by omega
  obtain ⟨h, hh, hk, hl⟩ := Multiset.countP_pos.1 hholders
  rcases exists_holds hn.reachable hstack' hh hl with ⟨name, hg⟩ | ⟨l', hholds⟩
  · rw [Slots.get?_eq_some, hn.slots, List.mem_filter] at hg
    have hname := hslots name h (Slots.get?_eq_some.2 hg.1) hk hl
    simp [hname] at hg
  · rw [hk] at hholds
    have hl' := hlinks l' (hn.heap.holds hholds)
    exact (hn.not_unreleased_of_mem hstack' hl').2 hholds.unreleased

end rest

end Cascade

/-- Between commands, when release actions only drop their resources, to empty slots releases the
least set of blocks that has to go, and lowers the counters of the others by what goes with it. -/
theorem cascades_of_reachable (hm : m.Reachable) (hcontrol : m.control = .running)
    (hstack : m.stack = [])
    (hplain : ∀ b ∈ m.state.heap.blocks.values, ∀ action ∈ b.action, action.Plain)
    (names : List String) : m.Cascades names (m.performAll (names.map .drop)) := by
  have hX : m.state.unowned names (m.state.cascade names) ⊆ m.state.cascade names :=
    (OrderHom.map_lfp (m.state.unowned names)).le
  have hplain' : ∀ l b action, m.state.heap.blocks.get? l = some b → b.action = some action →
      action.Plain :=
    fun l b action hb haction => hplain b (Table.mem_values.2 ⟨l, hb⟩) action haction
  have hstart : Cascade m.state [] (m.state.cascade names) m :=
    ⟨hm, ⟨hcontrol, by simp [hstack], hplain'⟩, .refl _, by simp,
      fun l b hb hnone => absurd (hb.symm.trans hnone) (by simp), fun l hl hnot => absurd hl hnot⟩
  have hnames : [] ++ names ⊆ names := List.Subset.refl names
  obtain ⟨hn, hstack'⟩ := hstart.performAll hX hstack hnames
  rw [List.nil_append] at hn
  refine ⟨hn.winding.control, hstack', hn.slots, fun l => ?_,
    hn.get?_resources_eq hm hstack hstack', fun l b hb => ⟨hn.of_freed hm hstack hstack' hb, ?_⟩,
    hn.deallocated_eq hm, fun l b' hb' => ?_⟩
  · have htrace := (chronicle_of_reachable hm).releasing l
    have htrace' := (chronicle_of_reachable hn.reachable).releasing l
    rw [trace_ledger, heap_ledger] at htrace htrace'
    rw [htrace, htrace', hn.started_eq hstack' l]
  · rintro ⟨hstrong, hunheld, hunwound, hslots, hlinks⟩
    exact hn.freed_of hm hstack hstack' hb hstrong hunheld hunwound hslots hlinks
  · obtain ⟨b, hb, -⟩ := hn.heap.blocks l b' hb'
    exact ⟨b, hb, hn.counts_eq hm hstack hstack' hb hb'⟩

/-- When the slots of both nodes are emptied, in either order, they go if the second one only
observes the first one, and the text has one observer less. If they own each other, they stay, each
with one owner less. -/
theorem cascades_linked :
    ((linked .weak).Cascades ["second", "first"]
        ((linked .weak).performAll [.drop "second", .drop "first"]) ∧
      (linked .weak).state.heap.counters = [(1, ⟨1, 2⟩), (2, ⟨2, 1⟩), (3, ⟨1, 2⟩)] ∧
      ((linked .weak).performAll [.drop "second", .drop "first"]).state.heap.counters =
        [(3, ⟨1, 1⟩)]) ∧
    (linked .strong).Cascades ["first", "second"]
        ((linked .strong).performAll [.drop "first", .drop "second"]) ∧
      (linked .strong).state.heap.counters = [(1, ⟨2, 1⟩), (2, ⟨2, 1⟩), (3, ⟨1, 2⟩)] ∧
      ((linked .strong).performAll [.drop "first", .drop "second"]).state.heap.counters =
        [(1, ⟨1, 1⟩), (2, ⟨1, 1⟩), (3, ⟨1, 2⟩)] :=
  ⟨⟨cascades_of_reachable (reachable_linked .weak) rfl rfl (by decide) ["second", "first"], rfl,
      rfl⟩,
    cascades_of_reachable (reachable_linked .strong) rfl rfl (by decide) ["first", "second"], rfl,
    rfl⟩

end Machine

end SharedOwnership
