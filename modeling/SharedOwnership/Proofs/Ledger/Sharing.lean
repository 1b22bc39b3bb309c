import SharedOwnership.Proofs.Ledger.Sound

/-!
# Sharing is accounted for

A clone, an observer and an owner got from an observer each bring a unit of their own, and a panic
loses at most the unit that it is about. What many threads make and drop leaves nothing behind.

## Main definitions

* `Ledger.Makes` — what an operation does to the ledger that makes a handle or panics.
-/

namespace SharedOwnership

namespace Heap

variable {heap : Heap} {h h' : Handle} {k : Kind} {l : Nat} {b : Block}

theorem count_of_get? (k : Kind) (hb : heap.blocks.get? l = some b) :
    heap.count k l = b.counts.get k := by rw [count, hb]

/-- A counter that is not zero is that of an allocated block. -/
theorem exists_of_count_pos (hc : 0 < heap.count k l) :
    ∃ b, heap.blocks.get? l = some b ∧ heap.count k l = b.counts.get k := by
  cases hb : heap.blocks.get? l with
  | none => simp [count, hb] at hc
  | some b => exact ⟨b, rfl, count_of_get? k hb⟩

/-- Giving back a unit of one kind leaves the other counter as it is. -/
theorem count_removeUnit_of_ne {j : Kind} (hj : j ≠ k) (l l' : Nat) :
    (heap.removeUnit k l).count j l' = heap.count j l' := by
  simp only [count, removeUnit, modifyBlock, Table.get?_modify]
  cases heap.blocks.get? l' with
  | none => simp
  | some b =>
    by_cases hl : l = l'
    · simpa [hl, Block.removeUnit] using Counts.get_modify_of_ne b.counts _ hj
    · simp [hl]

theorem count_forget_of_ne {j : Kind} (hj : j ≠ h.kind) (l : Nat) :
    (heap.forget h).count j l = heap.count j l := by
  rw [forget]
  split
  · exact count_removeUnit_of_ne hj _ l
  · rfl

/-- A further handle differs in its kind only. -/
theorem share_eq_ok (hs : (heap.share h k).2 = .ok h') : h' = { h with kind := k } := by
  rw [share] at hs
  split at hs
  · exact (Except.ok.inj hs).symm
  · next l hl =>
    cases hadd : (heap.addUnit k l).2 with
    | error e => simp [hadd, Except.map] at hs
    | ok => simpa [hadd, Except.map, eq_comm] using hs

theorem clone_eq_ok {heap' : Heap} (hc : heap.clone h = (heap', .ok h')) : h' = h := by
  have hs : (heap.share h h.kind).2 = .ok h' := congrArg Prod.snd hc
  exact share_eq_ok hs

theorem downgrade_eq_ok {heap' : Heap} (hd : heap.downgrade h = (heap', .ok h')) :
    h' = { h with kind := .weak } := by
  have hs : (heap.share h .weak).2 = .ok h' := congrArg Prod.snd hd
  exact share_eq_ok hs

/-- A lock gives an owner, even if it is an empty one. -/
theorem kind_lock (hs : (heap.lock h).2 = .ok h') : h'.kind = .strong := by
  rw [lock] at hs
  split at hs
  · cases hs
    rfl
  · split at hs
    · cases hs
      rfl
    · split at hs <;> cases hs <;> rfl

/-- An owner got from an observer is not the only one. -/
theorem one_lt_count_lock (hs : (heap.lock h).2 = .ok h') (hl : h'.block = some l) :
    1 < (heap.lock h).1.count .strong l := by
  rw [lock] at hs ⊢
  split at hs
  · cases hs
    cases hl
  · next l' hl' =>
    split at hs
    · cases hs
      cases hl
    · next b hb =>
      split at hs
      · cases hs
        cases hl
      · next b' hp =>
        cases hs
        obtain rfl : l' = l := by simpa [hl'] using hl
        obtain ⟨hpos, -, rfl⟩ := Block.promote_eq_some.1 hp
        rw [count_of_get? .strong (by rw [get?_setBlock hb, if_pos rfl])]
        simpa [Counts.get] using hpos
      · cases hs

end Heap

namespace Ledger

variable {p : Command → Prop} {L : Ledger} {h g : Handle} {k : Kind} {l : Nat} {b : Block}

/-- A further handle is accounted for; if there is a panic in its place, the heap is. -/
structure Makes (p : Command → Prop) (L : Ledger) (made : Heap × Except Panic Handle) : Prop where
  resources : made.1.resources = L.heap.resources
  ok : ∀ h, made.2 = .ok h →
    Entries p L { L with heap := made.1, handles := h ::ₘ L.handles }
  error : ∀ e, made.2 = .error e → Entries p L { L with heap := made.1 }

/-- A handle without a block has no pointer, so a copy of it is an empty handle. -/
theorem makes_empty (h : Handle) (hl : h.block = none) (hq : h.pointer = none) :
    Makes p L (L.heap, .ok h) := by
  refine ⟨rfl, ?_, fun e he => by cases he⟩
  rintro h' ⟨⟩
  exact .single (.addEmpty h hl hq)

theorem makes_share (hL : L.Sound) (hh : h ∈ L.handles) (hk : k = .strong → h.kind = .strong) :
    Makes p L (L.heap.share h k) := by
  rw [Heap.share]
  split
  · next hl => exact makes_empty _ hl ((hL.supports h hh).pointer_eq_none hl)
  · next l hl =>
    obtain ⟨b, hb⟩ := hL.exists_block hh hl
    simp only [Heap.addUnit, hb, Heap.modifyBlock_eq_setBlock _ hb]
    rcases Nat.lt_or_ge unitLimit (b.counts.get k) with hc | hc
    · rw [Block.addUnit_of_lt hc]
      refine ⟨rfl, fun h' hh' => (by cases hh'), fun e _ => ?_⟩
      exact .single (.overflow k l b hb hc)
    · rw [Block.addUnit_of_le hc]
      refine ⟨rfl, ?_, fun e he => (by cases he)⟩
      rintro h' ⟨⟩
      exact .single (.share h k l b hh hl hb hk hc)

theorem makes_clone (hL : L.Sound) (hh : h ∈ L.handles) : Makes p L (L.heap.clone h) :=
  makes_share hL hh id

theorem makes_downgrade (hL : L.Sound) (hh : h ∈ L.handles) : Makes p L (L.heap.downgrade h) :=
  makes_share hL hh fun hk => by cases hk

/-- A handle that can be locked becomes an owner; otherwise the lock gives an empty handle. -/
theorem makes_lock (hh : h ∈ L.handles) : Makes p L (L.heap.lock h) := by
  have hfailed : Makes p L (L.heap, .ok (.empty .strong h.ty)) := makes_empty _ rfl rfl
  rw [Heap.lock]
  split
  · exact hfailed
  · next l hl =>
    split
    · exact hfailed
    · next b hb =>
      split
      · exact hfailed
      · next b' hp =>
        refine ⟨rfl, ?_, fun e he => (by cases he)⟩
        rintro h' ⟨⟩
        exact .single (.promote h l b b' hh hl hb hp)
      · exact ⟨rfl, fun h' hh' => (by cases hh'), fun e _ => .refl⟩

/-! ### Handles that are made and dropped at once -/

/-- A handle goes that does not hold the last unit of its kind. -/
theorem entries_forget {hs : Multiset Handle} (hL : L.handles = h ::ₘ hs)
    (hc : ∀ l, h.block = some l → 1 < L.heap.count h.kind l) :
    Entries p L { L with heap := L.heap.forget h, handles := hs } := by
  rw [Heap.forget]
  split
  · next l hl =>
    have hcount := hc l hl
    obtain ⟨b, hb, heq⟩ := Heap.exists_of_count_pos (Nat.zero_lt_of_lt hcount)
    rw [heq] at hcount
    rw [Heap.removeUnit, Heap.modifyBlock_eq_setBlock _ hb]
    exact .single (.letGo h hs l b hL hl hb hcount)
  · next hl => exact .single (.dropEmpty h hs hL (by cases hb : h.block <;> simp_all))

namespace Sound

/-- Two handles of one kind hold two units. -/
theorem one_lt_count_of_twin {hs : Multiset Handle} (hL : L.Sound) (hL' : L.handles = h ::ₘ hs)
    (hh : h ∈ hs) (hl : h.block = some l) : 1 < L.heap.count h.kind l := by
  obtain ⟨b, hb⟩ := hL.exists_block (hL' ▸ Multiset.mem_cons_self h hs) hl
  have hcounted := (hL.accounts l b hb).counted h.kind
  have hpos := holders_pos hh rfl hl
  rw [hL', holders_cons, if_pos ⟨rfl, hl⟩] at hcounted
  rw [Heap.count_of_get? h.kind hb]
  omega

/-- An observer of a resource that is owned does not hold the last weak unit. -/
theorem one_lt_count_of_owner (hL : L.Sound) (hh : h ∈ L.handles) (hg : g ∈ L.handles)
    (hk : h.kind = .strong) (hk' : g.kind = .weak) (hl : h.block = some l)
    (hl' : g.block = some l) :
    1 < L.heap.count .weak l := by
  obtain ⟨b, hb⟩ := hL.exists_block hh hl
  have haction := hL.isSome_action hh hk hl hb
  have hweak := (hL.accounts l b hb).weak
  have hpos := holders_pos hg hk' hl'
  rw [common, haction, Bool.toNat_true] at hweak
  rw [Heap.count_of_get? .weak hb, Counts.get]
  omega

end Sound

/-- One round of an owner leaves the handles as they were. -/
theorem entries_churnOwner (hL : L.Sound) (hh : h ∈ L.handles) (hk : h.kind = .strong) :
    Entries p L { L with heap := (L.heap.churnOwner h).1 } := by
  have hclone : Makes p L (L.heap.clone h) := makes_clone hL hh
  rw [Heap.churnOwner]
  rcases hmade : L.heap.clone h with ⟨heap₁, e | copy⟩ <;> rw [hmade] at hclone
  · exact hclone.error e rfl
  obtain rfl : copy = h := Heap.clone_eq_ok hmade
  have h₁ : Entries p L { L with heap := heap₁, handles := copy ::ₘ L.handles } :=
    hclone.ok copy rfl
  have hdown := makes_downgrade (p := p) (h₁.sound hL) (Multiset.mem_cons_self copy L.handles)
  simp only at hdown ⊢
  rcases hmade' : heap₁.downgrade copy with ⟨heap₂, e | observer⟩ <;> rw [hmade'] at hdown
  · have h₂ : Entries p L { L with heap := heap₂, handles := copy ::ₘ L.handles } :=
      h₁.trans (hdown.error e rfl)
    refine h₂.trans (entries_forget rfl fun l hl => ?_)
    exact (h₂.sound hL).one_lt_count_of_twin rfl hh hl
  · obtain rfl : observer = { copy with kind := .weak } := Heap.downgrade_eq_ok hmade'
    have h₂ := h₁.trans (hdown.ok _ rfl)
    have hswap := Multiset.cons_swap { copy with kind := .weak } copy L.handles
    have h₃ := h₂.trans (entries_forget hswap fun l hl =>
      (h₂.sound hL).one_lt_count_of_twin hswap (Multiset.mem_cons_of_mem hh) hl)
    refine h₃.trans (entries_forget rfl fun l hl => ?_)
    exact (h₃.sound hL).one_lt_count_of_owner (Multiset.mem_cons_of_mem hh)
      (Multiset.mem_cons_self ..) hk rfl hl hl

/-- One round of an observer leaves the handles as they were. -/
theorem entries_churnObserver (hL : L.Sound) (hh : h ∈ L.handles) (hk : h.kind = .weak) :
    Entries p L { L with heap := (L.heap.churnObserver h).1 } := by
  have hclone : Makes p L (L.heap.clone h) := makes_clone hL hh
  rw [Heap.churnObserver]
  rcases hmade : L.heap.clone h with ⟨heap₁, e | copy⟩ <;> rw [hmade] at hclone
  · exact hclone.error e rfl
  obtain rfl : copy = h := Heap.clone_eq_ok hmade
  let L₁ : Ledger := { L with heap := heap₁, handles := copy ::ₘ L.handles }
  have h₁ : Entries p L L₁ := hclone.ok copy rfl
  have hlock : Makes p L₁ (heap₁.lock copy) := makes_lock (Multiset.mem_cons_self copy L.handles)
  have hcount : ∀ owner l, (heap₁.lock copy).2 = .ok owner → owner.block = some l →
      1 < (heap₁.lock copy).1.count .strong l := fun owner l => Heap.one_lt_count_lock
  have hkind : ∀ owner, (heap₁.lock copy).2 = .ok owner → owner.kind = .strong :=
    fun owner => Heap.kind_lock
  simp only
  rcases hmade' : heap₁.lock copy with ⟨heap₂, e | owner⟩ <;> rw [hmade'] at hlock hcount hkind
  · have h₂ := h₁.trans (hlock.error e rfl)
    refine h₂.trans (entries_forget rfl fun l hl => ?_)
    exact (h₂.sound hL).one_lt_count_of_twin rfl hh hl
  · have h₂ := h₁.trans (hlock.ok owner rfl)
    have hswap := Multiset.cons_swap owner copy L.handles
    have h₃ := h₂.trans (entries_forget hswap fun l hl =>
      (h₂.sound hL).one_lt_count_of_twin hswap (Multiset.mem_cons_of_mem hh) hl)
    refine h₃.trans (entries_forget rfl fun l hl => ?_)
    have hne : Kind.strong ≠ copy.kind := by simp [hk]
    rw [hkind owner rfl, Heap.count_forget_of_ne hne]
    exact hcount owner l rfl hl

theorem entries_churnRound (hL : L.Sound) (hh : h ∈ L.handles) :
    Entries p L { L with heap := (L.heap.churnRound h).1 } := by
  rw [Heap.churnRound]
  split
  · next hk => exact entries_churnOwner hL hh hk
  · next hk => exact entries_churnObserver hL hh hk

theorem entries_churnThread (hL : L.Sound) (hh : h ∈ L.handles) (rounds total : Nat) :
    Entries p L { L with heap := (L.heap.churnThread h rounds total).1 } := by
  induction rounds generalizing L total with
  | zero => exact .refl
  | succ rounds ih =>
    have hround : Entries p L _ := entries_churnRound hL hh
    rw [Heap.churnThread]
    rcases hmade : L.heap.churnRound h with ⟨heap, e | n⟩ <;> rw [hmade] at hround
    · exact hround
    · exact hround.trans (ih (L := { L with heap }) (hround.sound hL) hh (total + n))

/-- Many threads leave the handles as they were. -/
theorem entries_churn (hL : L.Sound) (hh : h ∈ L.handles) (rounds threads : Nat) :
    Entries p L { L with heap := (L.heap.churn h rounds threads).1 } := by
  induction threads generalizing L with
  | zero => exact .refl
  | succ threads ih =>
    have hthread : Entries p L _ := entries_churnThread hL hh rounds 0
    rw [Heap.churn]
    rcases hmade : L.heap.churnThread h rounds 0 with ⟨heap, e | n⟩ <;> rw [hmade] at hthread <;>
      exact hthread.trans (ih (L := { L with heap }) (hthread.sound hL) hh)

end Ledger

end SharedOwnership
