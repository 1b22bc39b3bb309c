import SharedOwnership.Proofs.Ledger.Sound

/-!
# Phases of a block

A block waits until its release action is started; then the action runs, and it ends or unwinds; in
the end the block is freed. Entries leave every block in its phase, and they say nothing of
teardowns in the trace.

## Main definitions

* `Block.Alike` — two blocks that differ in their counters only.
* `Ledger.Keeps` — what entries leave as it is.
* `Ledger.Obeys` — whether the scripts of the release actions that are still to be started obey.
-/

namespace SharedOwnership

/-- Two blocks that differ in their counters only. -/
structure Block.Alike (b b' : Block) : Prop where
  layout : b'.layout = b.layout
  resource : b'.resource = b.resource
  action : b'.action = b.action
  unwound : b'.unwound = b.unwound

namespace Block.Alike

variable {b b' b'' : Block}

theorem refl (b : Block) : b.Alike b := ⟨rfl, rfl, rfl, rfl⟩

theorem trans (h : b.Alike b') (h' : b'.Alike b'') : b.Alike b'' :=
  ⟨h'.layout.trans h.layout, h'.resource.trans h.resource, h'.action.trans h.action,
    h'.unwound.trans h.unwound⟩

end Block.Alike

theorem Block.alike_addUnit (b : Block) (k : Kind) : b.Alike (b.addUnit k).1 :=
  ⟨by unfold addUnit; split <;> rfl, by simp, by simp, by simp⟩

namespace Ledger

/-- What entries leave as it is. -/
structure Keeps (p : Command → Prop) (L L' : Ledger) : Prop where
  finishing : L'.finishing = L.finishing
  next_le : L.heap.blocks.next ≤ L'.heap.blocks.next
  stays : ∀ l b, L.heap.blocks.get? l = some b →
    ∃ b', L'.heap.blocks.get? l = some b' ∧ b.Alike b'
  gone : ∀ l, l < L.heap.blocks.next → L.heap.blocks.get? l = none →
    L'.heap.blocks.get? l = none
  /-- The labels that were handed out meanwhile are those of new blocks. -/
  comes : ∀ l, L.heap.blocks.next ≤ l → l < L'.heap.blocks.next →
    ∃ b action, L'.heap.blocks.get? l = some b ∧ b.action = some action ∧
      Command.AllIn p action.script
  trace : ∃ es, L'.trace = es ++ L.trace ∧ ∀ e ∈ es, e.isTeardown = false

variable {p : Command → Prop} {L L' L'' : Ledger} {l : Nat} {b b' : Block}

namespace Keeps

theorem refl (L : Ledger) : Keeps p L L :=
  ⟨rfl, le_rfl, fun _ b hb => ⟨b, hb, .refl b⟩, fun _ _ => id,
    fun _ hle hlt => absurd hlt (Nat.not_lt.2 hle), [], rfl, by simp⟩

theorem trans (h : Keeps p L L') (h' : Keeps p L' L'') : Keeps p L L'' := by
  refine ⟨h'.finishing.trans h.finishing, h.next_le.trans h'.next_le, fun l b hb => ?_,
    fun l hlt hnone => ?_, fun l hle hlt => ?_, ?_⟩
  · obtain ⟨b', hb', halike⟩ := h.stays l b hb
    obtain ⟨b'', hb'', halike'⟩ := h'.stays l b' hb'
    exact ⟨b'', hb'', halike.trans halike'⟩
  · exact h'.gone l (hlt.trans_le h.next_le) (h.gone l hlt hnone)
  · rcases Nat.lt_or_ge l L'.heap.blocks.next with hlt' | hle'
    · obtain ⟨b, action, hb, haction, hp⟩ := h.comes l hle hlt'
      obtain ⟨b', hb', halike⟩ := h'.stays l b hb
      exact ⟨b', action, hb', halike.action.trans haction, hp⟩
    · exact h'.comes l hle' hlt
  · obtain ⟨es, hes, hnone⟩ := h.trace
    obtain ⟨es', hes', hnone'⟩ := h'.trace
    refine ⟨es' ++ es, by rw [hes', hes, List.append_assoc], fun e he => ?_⟩
    rcases List.mem_append.1 he with he | he
    · exact hnone' e he
    · exact hnone e he

/-- A block that was not there is a new one. -/
theorem of_get? (h : Keeps p L L') (hb : L'.heap.blocks.get? l = some b') :
    (∃ b, L.heap.blocks.get? l = some b ∧ b.Alike b') ∨
      L.heap.blocks.get? l = none ∧ ∃ action, b'.action = some action ∧
        Command.AllIn p action.script := by
  cases hold : L.heap.blocks.get? l with
  | some b =>
    obtain ⟨c, hc, halike⟩ := h.stays l b hold
    obtain rfl : b' = c := Option.some.inj (hb.symm.trans hc)
    exact .inl ⟨b, rfl, halike⟩
  | none =>
    rcases Nat.lt_or_ge l L.heap.blocks.next with hlt | hle
    · rw [h.gone l hlt hold] at hb
      cases hb
    · obtain ⟨c, action, hc, haction, hp⟩ := h.comes l hle (Table.lt_next_of_get? hb)
      obtain rfl : b' = c := Option.some.inj (hb.symm.trans hc)
      exact .inr ⟨rfl, action, haction, hp⟩

/-- The blocks are the same, and the trace may tell more. -/
theorem of_blocks (hblocks : L'.heap.blocks = L.heap.blocks)
    (hfinishing : L'.finishing = L.finishing)
    (htrace : ∃ es, L'.trace = es ++ L.trace ∧ ∀ e ∈ es, e.isTeardown = false) : Keeps p L L' :=
  ⟨hfinishing, by rw [hblocks], fun l b hb => ⟨b, by rw [hblocks, hb], .refl b⟩,
    fun l _ hnone => by rw [hblocks, hnone],
    fun l hle hlt => absurd hlt (Nat.not_lt.2 (hblocks ▸ hle)), htrace⟩

/-- A block takes the place of one that differs in its counters only. -/
theorem of_setBlock (hb : L.heap.blocks.get? l = some b)
    (hheap : L'.heap = L.heap.setBlock l b') (hfinishing : L'.finishing = L.finishing)
    (htrace : L'.trace = L.trace) (halike : b.Alike b') : Keeps p L L' := by
  have hget : ∀ l', L'.heap.blocks.get? l' = if l = l' then some b' else L.heap.blocks.get? l' := by
    intro l'
    rw [hheap, Heap.get?_setBlock hb]
  have hnext : L'.heap.blocks.next = L.heap.blocks.next := by
    rw [hheap, Heap.next_blocks_setBlock]
  refine ⟨hfinishing, hnext.ge, fun l' c hc => ?_, fun l' _ hnone => ?_,
    fun l' hle hlt => absurd hlt (Nat.not_lt.2 (hnext ▸ hle)), [], htrace, by simp⟩
  · rw [hget]
    split
    · next heq =>
      subst heq
      obtain rfl : c = b := Option.some.inj (hc.symm.trans hb)
      exact ⟨b', rfl, halike⟩
    · exact ⟨c, hc, .refl c⟩
  · rw [hget, if_neg, hnone]
    rintro rfl
    rw [hnone] at hb
    cases hb

end Keeps

/-- An entry leaves every block in its phase. -/
theorem Entry.keeps (h : Entry p L L') : Keeps p L L' := by
  have hsame : ∃ es, L.trace = es ++ L.trace ∧ ∀ e ∈ es, e.isTeardown = false := ⟨[], rfl, by simp⟩
  cases h with
  | note e he => exact .of_blocks rfl rfl ⟨[e], rfl, by simpa using he⟩
  | addEmpty h hl hq => exact .of_blocks rfl rfl hsame
  | dropEmpty h hs hL hl => exact .of_blocks rfl rfl hsame
  | share h k l b hh hl hb hk hc => exact .of_setBlock hb rfl rfl rfl (b.alike_addUnit k)
  | overflow k l b hb hc => exact .of_setBlock hb rfl rfl rfl (b.alike_addUnit k)
  | promote h l b b' hh hl hb hp =>
    obtain ⟨-, -, rfl⟩ := Block.promote_eq_some.1 hp
    exact .of_setBlock hb rfl rfl rfl ⟨rfl, rfl, rfl, rfl⟩
  | letGo h hs l b hL hl hb hc => exact .of_setBlock hb rfl rfl rfl ⟨rfl, rfl, rfl, rfl⟩
  | lend k n l b b' hb hlend =>
    obtain ⟨-, rfl⟩ := Block.lend_eq_some hlend
    exact .of_setBlock hb rfl rfl rfl ⟨rfl, rfl, rfl, rfl⟩
  | takeBack k n l b b' hb htake =>
    obtain ⟨-, -, rfl⟩ := Block.takeBack_eq_some htake
    exact .of_setBlock hb rfl rfl rfl ⟨rfl, rfl, rfl, rfl⟩
  | adopt ty c layout action hp =>
    have hold : ∀ l, l < L.heap.blocks.next →
        ((L.heap.keep (c.map Subtype.val)).1.allocate layout
          (L.heap.keep (c.map Subtype.val)).2 action).1.blocks.get? l = L.heap.blocks.get? l := by
      intro l hl
      rw [Heap.get?_allocate, Heap.blocks_keep, if_neg (Nat.ne_of_lt hl)]
    refine ⟨rfl, ?_, fun l b hb => ⟨b, ?_, .refl b⟩, fun l hl hnone => ?_, fun l hle hlt => ?_,
      [.allocated L.heap.blocks.next layout], rfl, by simp [Event.isTeardown]⟩
    · simp [Heap.allocate]
    · exact (hold l (Table.lt_next_of_get? hb)).trans hb
    · exact (hold l hl).trans hnone
    · have hl : l = L.heap.blocks.next := by
        simp only [Heap.allocate, Table.next_insert, Heap.blocks_keep] at hlt
        omega
      have hnew := Heap.get?_allocate (L.heap.keep (c.map Subtype.val)).1 layout
        (L.heap.keep (c.map Subtype.val)).2 action l
      rw [Heap.blocks_keep, if_pos hl] at hnew
      exact ⟨_, action, hnew, rfl, hp⟩
  | orphan c => exact .of_blocks rfl rfl hsame
  | repoint c h hs f ty pointer hL hp hf hty hpointer => exact .of_blocks rfl rfl hsame
  | relink r f hf => exact .of_blocks rfl rfl hsame
  | destroy r rs hL => exact .of_blocks rfl rfl hsame

theorem Entries.keeps (h : Entries p L L') : Keeps p L L' := by
  induction h with
  | refl => exact .refl L
  | tail _ h ih => exact ih.trans h.keeps

/-! ### Scripts that obey -/

/-- The release actions that are still to be started have commands with the property `p` only. -/
def Obeys (p : Command → Prop) (L : Ledger) : Prop :=
  ∀ l b action, L.heap.blocks.get? l = some b → b.action = some action →
    Command.AllIn p action.script

theorem Entries.obeys (hL : L.Obeys p) (h : Entries p L L') : L'.Obeys p := by
  intro l b action hb haction
  rcases h.keeps.of_get? hb with ⟨c, hc, halike⟩ | ⟨-, action', haction', hp⟩
  · exact hL l c action hc (halike.action.symm.trans haction)
  · obtain rfl : action = action' := Option.some.inj (haction.symm.trans haction')
    exact hp

/-- A turn makes no block; it starts release actions at most, and only what runs may unwind. -/
theorem Turn.of_get? (h : Turn L L') (hb : L'.heap.blocks.get? l = some b') :
    ∃ b, L.heap.blocks.get? l = some b ∧ (b'.action = b.action ∨ b'.action = none) ∧
      (b'.unwound = b.unwound ∨ l ∈ L.finishing) := by
  have hset : ∀ l₁ b₁ b₁', L.heap.blocks.get? l₁ = some b₁ →
      (L.heap.setBlock l₁ b₁').blocks.get? l = some b' →
      (b₁'.action = b₁.action ∨ b₁'.action = none) →
      (b₁'.unwound = b₁.unwound ∨ l₁ ∈ L.finishing) →
      ∃ b, L.heap.blocks.get? l = some b ∧ (b'.action = b.action ∨ b'.action = none) ∧
        (b'.unwound = b.unwound ∨ l ∈ L.finishing) := by
    intro l₁ b₁ b₁' hb₁ hb haction hunwound
    rw [Heap.get?_setBlock hb₁] at hb
    split at hb
    · next heq =>
      cases hb
      exact ⟨b₁, heq ▸ hb₁, haction, heq ▸ hunwound⟩
    · exact ⟨b', hb, .inl rfl, .inl rfl⟩
  have herase : ∀ l₁, (L.heap.blocks.erase l₁).get? l = some b' →
      ∃ b, L.heap.blocks.get? l = some b ∧ (b'.action = b.action ∨ b'.action = none) ∧
        (b'.unwound = b.unwound ∨ l ∈ L.finishing) := by
    intro l₁ hb
    rw [Table.get?_erase] at hb
    split at hb
    · cases hb
    · exact ⟨b', hb, .inl rfl, .inl rfl⟩
  cases h with
  | release h hs l₁ b₁ hL hk hl hb₁ hc => exact hset l₁ b₁ _ hb₁ hb (.inr rfl) (.inl rfl)
  | finish l₁ ls b₁ hL hb₁ hc => exact hset l₁ b₁ _ hb₁ hb (.inl rfl) (.inl rfl)
  | abandon l₁ ls b₁ hL hb₁ =>
    exact hset l₁ b₁ _ hb₁ hb (.inl rfl) (.inr (hL ▸ Multiset.mem_cons_self ..))
  | free h hs l₁ b₁ hL hk hl hb₁ hc => exact herase l₁ hb
  | finishFree l₁ ls b₁ hL hb₁ hc => exact herase l₁ hb

theorem Turn.next_eq (h : Turn L L') : L'.heap.blocks.next = L.heap.blocks.next := by
  cases h <;> simp

theorem Turn.obeys (hL : L.Obeys p) (h : Turn L L') : L'.Obeys p := by
  intro l b' action hb' haction
  obtain ⟨b, hb, hsame | hnone, -⟩ := h.of_get? hb'
  · exact hL l b action hb (hsame.symm.trans haction)
  · rw [hnone] at haction
    cases haction

end Ledger

end SharedOwnership
