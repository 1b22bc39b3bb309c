import SharedOwnership.Proofs.Ledger.Step

/-!
# What the trace tells of teardowns

The trace tells of a release action once the action is started, and of the end of a block once it is
freed, each time once.

## Main definitions

* `Heap.started`, `Heap.freed` — how far the teardown of a block has come.
* `Ledger.Chronicle` — whether the trace tells just that.
-/

namespace SharedOwnership

namespace Heap

/-- Whether the release action of the block labelled `l` was started. -/
def started (heap : Heap) (l : Nat) : Bool :=
  match heap.blocks.get? l with
  | some b => b.action.isNone
  | none => 0 < l ∧ l < heap.blocks.next

/-- Whether the block labelled `l` was freed. -/
def freed (heap : Heap) (l : Nat) : Bool :=
  (heap.blocks.get? l).isNone ∧ 0 < l ∧ l < heap.blocks.next

variable {heap : Heap} {l : Nat} {b : Block}

theorem started_of_get? (hb : heap.blocks.get? l = some b) : heap.started l = b.action.isNone := by
  rw [started, hb]

theorem started_of_get?_eq_none (hb : heap.blocks.get? l = none) :
    heap.started l = decide (0 < l ∧ l < heap.blocks.next) := by rw [started, hb]

theorem freed_of_get? (hb : heap.blocks.get? l = some b) : heap.freed l = false := by
  simp [freed, hb]

theorem freed_iff : heap.freed l ↔
    heap.blocks.get? l = none ∧ 0 < l ∧ l < heap.blocks.next := by simp [freed]

theorem started_setBlock (hb : heap.blocks.get? l = some b) (b' : Block) (l' : Nat) :
    (heap.setBlock l b').started l' =
      if l = l' then b'.action.isNone else heap.started l' := by
  simp only [started, get?_setBlock hb, next_blocks_setBlock]
  by_cases heq : l = l' <;> simp [heq]

theorem freed_setBlock (hb : heap.blocks.get? l = some b) (b' : Block) (l' : Nat) :
    (heap.setBlock l b').freed l' = heap.freed l' := by
  simp only [freed, get?_setBlock hb, next_blocks_setBlock]
  split
  · next heq => simp [← heq, hb]
  · rfl

/-- A block is freed after its release action was started. -/
theorem started_erase (hb : heap.blocks.get? l = some b) (haction : b.action = none) (l' : Nat) :
    started { heap with blocks := heap.blocks.erase l } l' = heap.started l' := by
  simp only [started, Table.get?_erase, Table.next_erase]
  by_cases heq : l = l'
  · have hlt := Table.lt_next_of_get? hb
    have hpos : 0 < l := Nat.pos_of_ne_zero fun hzero => by simp [hzero] at hb
    simp [← heq, hb, haction, hlt, hpos]
  · simp [heq]

theorem freed_erase (hb : heap.blocks.get? l = some b) (l' : Nat) :
    freed { heap with blocks := heap.blocks.erase l } l' =
      if l = l' then true else heap.freed l' := by
  simp only [freed, Table.get?_erase, Table.next_erase]
  by_cases heq : l = l'
  · have hlt := Table.lt_next_of_get? hb
    have hpos : 0 < l := Nat.pos_of_ne_zero fun hzero => by simp [hzero] at hb
    simp [← heq, hlt, hpos]
  · simp [heq]

theorem started_of_freed (h : heap.freed l) : heap.started l := by
  obtain ⟨hb, hl⟩ := freed_iff.1 h
  rw [started_of_get?_eq_none hb]
  exact decide_eq_true hl

end Heap

namespace Event

/-- Whether an event is the end of the block labelled `l`. -/
def frees (l : Nat) : Event → Bool
  | .deallocated l' _ => l' = l
  | _ => false

theorem frees_of_not_isTeardown {e : Event} (he : e.isTeardown = false) (l : Nat) :
    e.frees l = false := by
  cases e <;> first | rfl | cases he

/-- The end of a block is told directly after it is announced; the newest event comes first. -/
def Announced (trace : List Event) : Prop :=
  ∀ es es' l layout, trace = es ++ .deallocated l layout :: es' →
    ∃ es'', es' = .deallocating l :: es''

variable {trace : List Event} {e : Event}

theorem Announced.cons (h : Announced trace) (he : ∀ l, e.frees l = false) :
    Announced (e :: trace) := by
  rintro (_ | ⟨e', es⟩) es' l layout heq
  · cases heq
    simpa [frees] using he l
  · exact h es es' l layout (List.cons.inj heq).2

/-- The end of a block is told together with its announcement. -/
theorem Announced.deallocated (h : Announced trace) (l : Nat) (layout : Layout) :
    Announced (.deallocated l layout :: .deallocating l :: trace) := by
  rintro (_ | ⟨e, _ | ⟨e', es⟩⟩) es' l' layout' heq
  · cases heq
    exact ⟨trace, rfl⟩
  · cases heq
  · exact h es es' l' layout' (List.cons.inj (List.cons.inj heq).2).2

end Event

namespace Ledger

/-- The trace tells what has come of every block so far. -/
structure Chronicle (L : Ledger) : Prop where
  releasing : ∀ l, L.trace.count (.releasing l) = (L.heap.started l).toNat
  deallocating : ∀ l, L.trace.count (.deallocating l) = (L.heap.freed l).toNat
  deallocated : ∀ l, L.trace.countP (Event.frees l) = (L.heap.freed l).toNat
  announced : Event.Announced L.trace

variable {p : Command → Prop} {L L' : Ledger} {l : Nat} {b : Block}

/-- Entries start no release action. -/
theorem Keeps.started (h : Keeps p L L') (l : Nat) : L'.heap.started l = L.heap.started l := by
  cases hb : L.heap.blocks.get? l with
  | some b =>
    obtain ⟨b', hb', halike⟩ := h.stays l b hb
    rw [Heap.started_of_get? hb, Heap.started_of_get? hb', halike.action]
  | none =>
    rw [Heap.started_of_get?_eq_none hb]
    rcases Nat.lt_or_ge l L.heap.blocks.next with hlt | hle
    · rw [Heap.started_of_get?_eq_none (h.gone l hlt hb)]
      simp [hlt, hlt.trans_le h.next_le]
    · rcases Nat.lt_or_ge l L'.heap.blocks.next with hlt' | hle'
      · obtain ⟨b', action, hb', haction, -⟩ := h.comes l hle hlt'
        rw [Heap.started_of_get? hb', haction]
        simp [Nat.not_lt.2 hle]
      · rw [Heap.started_of_get?_eq_none (Table.get?_of_next_le hle')]
        simp [Nat.not_lt.2 hle, Nat.not_lt.2 hle']

/-- Entries free no block. -/
theorem Keeps.freed (h : Keeps p L L') (l : Nat) : L'.heap.freed l = L.heap.freed l := by
  rw [Bool.eq_iff_iff, Heap.freed_iff, Heap.freed_iff]
  constructor
  · rintro ⟨hb', hpos, hlt'⟩
    rcases Nat.lt_or_ge l L.heap.blocks.next with hlt | hle
    · cases hb : L.heap.blocks.get? l with
      | none => exact ⟨rfl, hpos, hlt⟩
      | some b =>
        obtain ⟨b', hsome, -⟩ := h.stays l b hb
        rw [hb'] at hsome
        cases hsome
    · obtain ⟨b', action, hsome, -⟩ := h.comes l hle hlt'
      rw [hb'] at hsome
      cases hsome
  · exact fun ⟨hb, hpos, hlt⟩ => ⟨h.gone l hlt hb, hpos, hlt.trans_le h.next_le⟩

theorem Keeps.chronicle (h : Keeps p L L') (hL : L.Chronicle) : L'.Chronicle := by
  obtain ⟨es, hes, hnone⟩ := h.trace
  have hcount : ∀ e : Event, e.isTeardown = true → es.count e = 0 :=
    fun e he => List.count_eq_zero.2 fun hmem => by simp [hnone e hmem] at he
  have hfrees : ∀ e ∈ es, ∀ l, e.frees l = false :=
    fun e he l => Event.frees_of_not_isTeardown (hnone e he) l
  refine ⟨fun l => ?_, fun l => ?_, fun l => ?_, ?_⟩
  · rw [hes, List.count_append, hcount _ rfl, hL.releasing, h.started, Nat.zero_add]
  · rw [hes, List.count_append, hcount _ rfl, hL.deallocating, h.freed, Nat.zero_add]
  · have hzero : es.countP (Event.frees l) = 0 :=
      List.countP_eq_zero.2 fun e he => by simp [hfrees e he l]
    rw [hes, List.countP_append, hzero, hL.deallocated, h.freed, Nat.zero_add]
  · rw [hes]
    clear hes hcount hnone
    induction es with
    | nil => exact hL.announced
    | cons e es ih =>
      have hrest := ih fun e he => hfrees e (List.mem_cons_of_mem _ he)
      exact hrest.cons (hfrees e List.mem_cons_self)

/-- A block takes the place of one in the same phase. -/
theorem Chronicle.of_setBlock (hL : L.Chronicle) (hb : L.heap.blocks.get? l = some b) {b' : Block}
    (hheap : L'.heap = L.heap.setBlock l b') (htrace : L'.trace = L.trace)
    (haction : b'.action = b.action) : L'.Chronicle := by
  have hstarted : ∀ l', L'.heap.started l' = L.heap.started l' := by
    intro l'
    rw [hheap, Heap.started_setBlock hb]
    split
    · next heq => rw [← heq, Heap.started_of_get? hb, haction]
    · rfl
  have hfreed : ∀ l', L'.heap.freed l' = L.heap.freed l' := by
    intro l'
    rw [hheap, Heap.freed_setBlock hb]
  refine ⟨fun l' => ?_, fun l' => ?_, fun l' => ?_, htrace ▸ hL.announced⟩
  · rw [htrace, hstarted, hL.releasing]
  · rw [htrace, hfreed, hL.deallocating]
  · rw [htrace, hfreed, hL.deallocated]

/-- The release action of a block is started. -/
theorem Chronicle.of_release (hL : L.Chronicle) (hb : L.heap.blocks.get? l = some b) {b' : Block}
    (hheap : L'.heap = L.heap.setBlock l b') (htrace : L'.trace = .releasing l :: L.trace)
    (haction : b.action.isSome) (haction' : b'.action = none) : L'.Chronicle := by
  have hfreed : ∀ l', L'.heap.freed l' = L.heap.freed l' := by
    intro l'
    rw [hheap, Heap.freed_setBlock hb]
  refine ⟨fun l' => ?_, fun l' => ?_, fun l' => ?_, ?_⟩
  · rw [htrace, hheap, Heap.started_setBlock hb, List.count_cons, hL.releasing]
    by_cases heq : l = l'
    · subst heq
      simpa [Heap.started_of_get? hb, haction'] using haction
    · simp [heq]
  · rw [htrace, hfreed, List.count_cons, hL.deallocating]
    simp
  · rw [htrace, hfreed, List.countP_cons, hL.deallocated]
    simp [Event.frees]
  · rw [htrace]
    exact hL.announced.cons fun _ => rfl

/-- A block is freed whose release action was started. -/
theorem Chronicle.of_erase (hL : L.Chronicle) (hb : L.heap.blocks.get? l = some b)
    (haction : b.action = none) (layout : Layout)
    (hheap : L'.heap = { L.heap with blocks := L.heap.blocks.erase l })
    (htrace : L'.trace = .deallocated l layout :: .deallocating l :: L.trace) : L'.Chronicle := by
  refine ⟨fun l' => ?_, fun l' => ?_, fun l' => ?_, htrace ▸ hL.announced.deallocated l layout⟩
  · rw [htrace, hheap, Heap.started_erase hb haction, List.count_cons, List.count_cons,
      hL.releasing]
    simp
  · rw [htrace, hheap, Heap.freed_erase hb, List.count_cons, List.count_cons, hL.deallocating]
    by_cases heq : l = l'
    · subst heq
      simp [Heap.freed_of_get? hb]
    · simp [heq]
  · rw [htrace, hheap, Heap.freed_erase hb, List.countP_cons, List.countP_cons, hL.deallocated]
    by_cases heq : l = l'
    · subst heq
      simp [Heap.freed_of_get? hb, Event.frees]
    · simp [heq, Event.frees]

/-- Each turn is told, and nothing else. -/
theorem Turn.chronicle (hL : L.Sound) (hc : L.Chronicle) (h : Turn L L') : L'.Chronicle := by
  cases h with
  | release h hs l b hL' hk hl hb hone =>
    exact hc.of_release hb rfl rfl ((hL.accounts l b hb).live.2 (by omega)) rfl
  | finish l ls b hL' hb => exact hc.of_setBlock hb rfl rfl rfl
  | abandon l ls b hL' hb => exact hc.of_setBlock hb rfl rfl rfl
  | free h hs l b hL' hk hl hb hone =>
    have hh : h ∈ L.handles := hL' ▸ Multiset.mem_cons_self ..
    exact hc.of_erase hb (hL.of_last_observer hh hk hl hb hone).1 b.layout rfl rfl
  | finishFree l ls b hL' hb hone =>
    have hmem : l ∈ L.finishing := hL' ▸ Multiset.mem_cons_self ..
    exact hc.of_erase hb (hL.of_mem_finishing hmem hb).1 b.layout rfl rfl

theorem Step.chronicle (hL : L.Sound) (hc : L.Chronicle) (h : Step p L L') : L'.Chronicle := by
  cases h with
  | entries h => exact h.keeps.chronicle hc
  | turn M h h' => exact h'.keeps.chronicle (h.chronicle hL hc)

end Ledger

end SharedOwnership
