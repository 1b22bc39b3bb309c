import SharedOwnership.Proofs.Ledger.Entry

/-!
# Entries and turns keep the ledger sound

Most of them put one block in place of another and change the handles along with it.
`Sound.of_setBlock` says once what has to be seen to then; `Sound.of_erase` does so for a block that
is freed, and `Sound.of_handles` for handles that change while the heap stays.
-/

namespace SharedOwnership

theorem Heap.Supports.mono {heap heap' : Heap} {h : Handle} (hs : heap.Supports h)
    (hblocks : ∀ l b, h.block = some l → heap.blocks.get? l = some b →
      ∃ b', heap'.blocks.get? l = some b' ∧ b'.resource = b.resource)
    (hresources : ∀ l b r x', h.block = some l → heap.blocks.get? l = some b → b.resource = some r →
      heap'.resources.get? r = some x' →
      ∃ x, heap.resources.get? r = some x ∧ x'.content = x.content) :
    heap'.Supports h := by
  refine ⟨hs.pointer_eq_none, fun l hl => ?_⟩
  obtain ⟨b, hb, hnone, hpoints⟩ := hs.allocated l hl
  obtain ⟨b', hb', hres⟩ := hblocks l b hl hb
  refine ⟨b', hb', by rw [hres]; exact hnone, fun q hq => ?_⟩
  rcases hpoints q hq with hq | ⟨r, hr, hregion, hpart⟩
  · exact .inl hq
  · refine .inr ⟨r, hres.trans hr, hregion, fun x' hx' => ?_⟩
    obtain ⟨x, hx, hcontent⟩ := hresources l b r x' hl hb hr hx'
    rw [hcontent]
    exact hpart x hx

/-- A handle rests on what another one with its type, pointer and block rests on. -/
theorem Heap.Supports.withKind {heap : Heap} {h : Handle} (hs : heap.Supports h) (k : Kind) :
    heap.Supports { h with kind := k } := ⟨hs.pointer_eq_none, hs.allocated⟩

namespace Ledger

variable {p : Command → Prop} {L L' : Ledger}

/-- The account of a block depends on its own holders only. -/
theorem Accounts.congr {l : Nat} {b : Block} (h : L.Accounts l b)
    (hholders : ∀ k, holders k l L'.handles = holders k l L.handles)
    (hfinishing : L'.finishing.count l = L.finishing.count l) : L'.Accounts l b := by
  have hcommon : L'.common l b = L.common l b := by simp only [common, hfinishing]
  refine ⟨fun k => ?_, h.live, h.weak_pos, ?_⟩
  · rw [hholders, hcommon]
    exact h.counted k
  · rw [hcommon]
    exact h.common_le

/-- A block stays accounted for as long as its counters change along with the units that handles
hold and those that no handle holds. -/
theorem Accounts.balance {l : Nat} {b b' : Block} (h : L.Accounts l b)
    (haction : b'.action = b.action) (hunwound : b'.unwound = b.unwound)
    (hfinishing : L'.finishing.count l = L.finishing.count l)
    (hpos : ∀ k, 0 < b'.counts.get k ↔ 0 < b.counts.get k)
    (hbalance : ∀ k, b'.counts.get k + (holders k l L.handles + b.unheld k) =
      b.counts.get k + (holders k l L'.handles + b'.unheld k)) : L'.Accounts l b' := by
  have hcommon : L'.common l b' = L.common l b := by
    simp only [common, haction, hunwound, hfinishing]
  refine ⟨fun k => ?_, ?_, (hpos .weak).2 h.weak_pos, ?_⟩
  · have hcounted := h.counted k
    have hk := hbalance k
    rw [hcommon]
    omega
  · rw [haction]
    exact h.live.trans (hpos .strong).symm
  · rw [hcommon]
    exact h.common_le

namespace Sound

/-- A block takes the place of one with the same resource. -/
theorem of_setBlock (hL : L.Sound) {l : Nat} {b b' : Block} (hb : L.heap.blocks.get? l = some b)
    (hheap : L'.heap = L.heap.setBlock l b') (hresource : b'.resource = b.resource)
    (haction : b'.action.isSome → b.action.isSome)
    (hholders : ∀ k l', l' ≠ l → holders k l' L'.handles = holders k l' L.handles)
    (hcount : ∀ l', l' ≠ l → L'.finishing.count l' = L.finishing.count l')
    (haccounts : L'.Accounts l b') (hsupports : ∀ h ∈ L'.handles, L.heap.Supports h)
    (hdoomed : ∀ r ∈ L'.doomed,
      r ∈ L.doomed ∨ b.action.isSome ∧ b'.action = none ∧ b.resource = some r)
    (hnodup : L'.doomed.Nodup) : L'.Sound := by
  have hget : ∀ l', L'.heap.blocks.get? l' = if l = l' then some b' else L.heap.blocks.get? l' := by
    intro l'
    rw [hheap]
    exact Heap.get?_setBlock hb b' l'
  -- every block after the change stands for one with the same resource before it
  have hback : ∀ l' c, L'.heap.blocks.get? l' = some c → ∃ c₀, L.heap.blocks.get? l' = some c₀ ∧
      c.resource = c₀.resource ∧ (c.action.isSome → c₀.action.isSome) := by
    intro l' c hc
    rw [hget] at hc
    split at hc
    · next h =>
      cases hc
      exact ⟨b, h ▸ hb, hresource, haction⟩
    · exact ⟨c, hc, rfl, id⟩
  have hresources : L'.heap.resources = L.heap.resources := by rw [hheap]; rfl
  refine ⟨?_, ?_, ?_, ?_, ?_, ?_, ?_, hnodup⟩
  · intro l' c hc
    rw [hget] at hc
    split at hc
    · next h =>
      cases hc
      exact h ▸ haccounts
    · next h =>
      exact (hL.accounts l' c hc).congr (fun k => hholders k l' (Ne.symm h)) (hcount l' (Ne.symm h))
  · intro h hh
    refine (hsupports h hh).mono (fun l' c _ hc => ?_) (fun l' c r x' _ _ _ hx' => ?_)
    · rw [hget]
      split
      · next heq =>
        subst heq
        rw [hb] at hc
        cases hc
        exact ⟨b', rfl, hresource⟩
      · exact ⟨c, hc, rfl⟩
    · rw [hresources] at hx'
      exact ⟨x', hx', rfl⟩
  · intro l' hl'
    rw [hget]
    split
    · exact ⟨b', rfl⟩
    · next h =>
      refine hL.finishing l' ?_
      rw [← Multiset.count_pos, ← hcount l' (Ne.symm h)]
      exact Multiset.count_pos.2 hl'
  · intro l' c r hc hact hr
    obtain ⟨c₀, hc₀, hres, hact₀⟩ := hback l' c hc
    obtain ⟨hx, hr'⟩ := hL.stays l' c₀ r hc₀ (hact₀ hact) (hres ▸ hr)
    refine ⟨hresources ▸ hx, fun hmem => ?_⟩
    rcases hdoomed r hmem with hmem | ⟨-, hnone, hres'⟩
    · exact hr' hmem
    · have heq := hL.unshared l' l c₀ b r hc₀ hb (hres ▸ hr) hres'
      rw [hget, if_pos heq.symm] at hc
      cases hc
      rw [hnone] at hact
      cases hact
  · intro l' c r hc hr
    obtain ⟨c₀, hc₀, hres, -⟩ := hback l' c hc
    rw [hresources]
    exact hL.stored l' c₀ r hc₀ (hres ▸ hr)
  · intro l₁ l₂ c₁ c₂ r hc₁ hc₂ hr₁ hr₂
    obtain ⟨d₁, hd₁, hres₁, -⟩ := hback l₁ c₁ hc₁
    obtain ⟨d₂, hd₂, hres₂, -⟩ := hback l₂ c₂ hc₂
    exact hL.unshared l₁ l₂ d₁ d₂ r hd₁ hd₂ (hres₁ ▸ hr₁) (hres₂ ▸ hr₂)
  · intro r hr
    rw [hresources]
    rcases hdoomed r hr with hr | ⟨hact, -, hres⟩
    · exact hL.doomed r hr
    · exact (hL.stays l b r hb hact hres).1

/-- A block without handles is freed. -/
theorem of_erase (hL : L.Sound) {l : Nat}
    (hheap : L'.heap = { L.heap with blocks := L.heap.blocks.erase l })
    (hholders : ∀ k l', l' ≠ l → holders k l' L'.handles = holders k l' L.handles)
    (hcount : ∀ l', l' ≠ l → L'.finishing.count l' = L.finishing.count l')
    (hsupports : ∀ h ∈ L'.handles, L.heap.Supports h ∧ h.block ≠ some l)
    (hfinishing : l ∉ L'.finishing) (hdoomed : L'.doomed = L.doomed) : L'.Sound := by
  have hget : ∀ l', L'.heap.blocks.get? l' = if l = l' then none else L.heap.blocks.get? l' := by
    intro l'
    rw [hheap]
    exact Table.get?_erase ..
  have hback : ∀ l' c, L'.heap.blocks.get? l' = some c →
      l' ≠ l ∧ L.heap.blocks.get? l' = some c := by
    intro l' c hc
    rw [hget] at hc
    split at hc
    · cases hc
    · next h => exact ⟨Ne.symm h, hc⟩
  have hresources : L'.heap.resources = L.heap.resources := by rw [hheap]
  refine ⟨?_, ?_, ?_, ?_, ?_, ?_, ?_, ?_⟩
  · intro l' c hc
    obtain ⟨hne, hc⟩ := hback l' c hc
    exact (hL.accounts l' c hc).congr (fun k => hholders k l' hne) (hcount l' hne)
  · intro h hh
    obtain ⟨hsup, hne⟩ := hsupports h hh
    refine hsup.mono (fun l' c hl' hc => ⟨c, ?_, rfl⟩) (fun l' c r x' _ _ _ hx' => ?_)
    · have hne' : l ≠ l' := fun heq => hne (heq ▸ hl')
      rw [hget, if_neg hne', hc]
    · rw [hresources] at hx'
      exact ⟨x', hx', rfl⟩
  · intro l' hl'
    have hne : l' ≠ l := fun heq => hfinishing (heq ▸ hl')
    rw [hget, if_neg (Ne.symm hne)]
    refine hL.finishing l' ?_
    rw [← Multiset.count_pos, ← hcount l' hne]
    exact Multiset.count_pos.2 hl'
  · intro l' c r hc hact hr
    rw [hresources, hdoomed]
    exact hL.stays l' c r (hback l' c hc).2 hact hr
  · intro l' c r hc hr
    rw [hresources]
    exact hL.stored l' c r (hback l' c hc).2 hr
  · intro l₁ l₂ c₁ c₂ r hc₁ hc₂ hr₁ hr₂
    exact hL.unshared l₁ l₂ c₁ c₂ r (hback l₁ c₁ hc₁).2 (hback l₂ c₂ hc₂).2 hr₁ hr₂
  · intro r hr
    rw [hdoomed] at hr
    rw [hresources]
    exact hL.doomed r hr
  · rw [hdoomed]
    exact hL.nodup_doomed

/-- Handles change while their units stay. -/
theorem of_handles (hL : L.Sound) (hheap : L'.heap = L.heap)
    (hholders : ∀ k l, holders k l L'.handles = holders k l L.handles)
    (hfinishing : L'.finishing = L.finishing) (hdoomed : L'.doomed = L.doomed)
    (hsupports : ∀ h ∈ L'.handles, L.heap.Supports h) : L'.Sound := by
  refine ⟨?_, ?_, ?_, ?_, ?_, ?_, ?_, ?_⟩
  · intro l b hb
    rw [hheap] at hb
    exact (hL.accounts l b hb).congr (fun k => hholders k l) (by rw [hfinishing])
  · rw [hheap]
    exact hsupports
  · rw [hheap, hfinishing]
    exact hL.finishing
  · rw [hheap, hdoomed]
    exact hL.stays
  · rw [hheap]
    exact hL.stored
  · rw [hheap]
    exact hL.unshared
  · rw [hheap, hdoomed]
    exact hL.doomed
  · rw [hdoomed]
    exact hL.nodup_doomed

end Sound

/-! ### Entries -/

namespace Sound

variable {h : Handle} {hs : Multiset Handle} {k : Kind} {n l : Nat} {b b' : Block}

/-- Units of one block are made, given back, lent or lost. -/
theorem of_balance (hL : L.Sound) (hb : L.heap.blocks.get? l = some b)
    (hresource : b'.resource = b.resource) (haction : b'.action = b.action)
    (hunwound : b'.unwound = b.unwound)
    (hpos : ∀ j, 0 < b'.counts.get j ↔ 0 < b.counts.get j)
    (hholders : ∀ j l', l' ≠ l → holders j l' hs = holders j l' L.handles)
    (hbalance : ∀ j, b'.counts.get j + (holders j l L.handles + b.unheld j) =
      b.counts.get j + (holders j l hs + b'.unheld j))
    (hsupports : ∀ h ∈ hs, L.heap.Supports h) :
    Sound { L with heap := L.heap.setBlock l b', handles := hs } :=
  hL.of_setBlock hb rfl hresource (by rw [haction]; exact id) hholders (fun _ _ => rfl)
    ((hL.accounts l b hb).balance haction hunwound rfl hpos hbalance) hsupports
    (fun _ => .inl) hL.nodup_doomed

/-- A handle's block has units of every kind that the handle may be shared as. -/
theorem get_pos (hL : L.Sound) (hh : h ∈ L.handles) (hl : h.block = some l)
    (hb : L.heap.blocks.get? l = some b) (hk : k = .strong → h.kind = .strong) :
    0 < b.counts.get k := by
  cases k with
  | strong => exact hk rfl ▸ hL.one_le_count hh hl hb
  | weak => exact (hL.accounts l b hb).weak_pos

theorem share (hL : L.Sound) (hh : h ∈ L.handles) (hl : h.block = some l)
    (hb : L.heap.blocks.get? l = some b) (hk : k = .strong → h.kind = .strong)
    (hc : b.counts.get k ≤ unitLimit) :
    Sound { L with
      heap := L.heap.setBlock l (b.addUnit k).1,
      handles := { h with kind := k } ::ₘ L.handles } := by
  have hpos := hL.get_pos hh hl hb hk
  refine hL.of_balance hb (by simp) (by simp) (by simp) ?_ ?_ (fun j => ?_) ?_
  · rw [Block.counts_addUnit]
    exact Counts.pos_modify (by omega)
  · intro j l' hne
    simp [hl, Ne.symm hne]
  · simp only [Block.counts_addUnit, Counts.get_modify, Block.unheld, Block.lent_addUnit,
      Block.lost_addUnit_of_le hc, holders_cons, hl, and_true, eq_comm (a := k)]
    split <;> omega
  · intro g hg
    rcases Multiset.mem_cons.1 hg with rfl | hg
    · exact (hL.supports h hh).withKind k
    · exact hL.supports g hg

theorem overflow (hL : L.Sound) (hb : L.heap.blocks.get? l = some b)
    (hc : unitLimit < b.counts.get k) :
    Sound { L with heap := L.heap.setBlock l (b.addUnit k).1 } := by
  refine hL.of_balance hb (by simp) (by simp) (by simp) ?_ (fun _ _ _ => rfl) (fun j => ?_)
    hL.supports
  · rw [Block.counts_addUnit]
    exact Counts.pos_modify (by omega)
  · simp only [Block.counts_addUnit, Counts.get_modify, Block.unheld, Block.lent_addUnit,
      Block.lost_addUnit_of_lt hc]
    split <;> omega

theorem promote (hL : L.Sound) (hh : h ∈ L.handles) (hl : h.block = some l)
    (hb : L.heap.blocks.get? l = some b) (hp : b.promote = .ok (some b')) :
    Sound { L with
      heap := L.heap.setBlock l b', handles := { h with kind := .strong } ::ₘ L.handles } := by
  obtain ⟨hpos, -, rfl⟩ := Block.promote_eq_some.1 hp
  refine hL.of_balance hb rfl rfl rfl ?_ ?_ (fun j => ?_) ?_
  · have hpos : 0 < b.counts.get .strong := hpos
    exact Counts.pos_modify (by omega)
  · intro j l' hne
    simp [hl, Ne.symm hne]
  · simp only [Counts.get_modify, Block.unheld, holders_cons, hl, and_true,
      eq_comm (a := Kind.strong)]
    split <;> omega
  · intro g hg
    rcases Multiset.mem_cons.1 hg with rfl | hg
    · exact (hL.supports h hh).withKind .strong
    · exact hL.supports g hg

theorem letGo (hL : L.Sound) (hL' : L.handles = h ::ₘ hs) (hl : h.block = some l)
    (hb : L.heap.blocks.get? l = some b) (hc : 1 < b.counts.get h.kind) :
    Sound { L with heap := L.heap.setBlock l (b.removeUnit h.kind), handles := hs } := by
  refine hL.of_balance hb rfl rfl rfl ?_ ?_ (fun j => ?_) ?_
  · exact Counts.pos_modify (by omega)
  · intro j l' hne
    simp [hL', hl, Ne.symm hne]
  · simp only [Block.removeUnit, Counts.get_modify, Block.unheld, hL', holders_cons, hl, and_true,
      eq_comm (a := h.kind)]
    split
    · next hj =>
      subst hj
      omega
    · omega
  · intro g hg
    exact hL.supports g (hL' ▸ Multiset.mem_cons_of_mem hg)

theorem lend (hL : L.Sound) (hb : L.heap.blocks.get? l = some b) (hlend : b.lend k n = some b') :
    Sound { L with heap := L.heap.setBlock l b' } := by
  obtain ⟨hpos, rfl⟩ := Block.lend_eq_some hlend
  refine hL.of_balance hb rfl rfl rfl ?_ (fun _ _ _ => rfl) (fun j => ?_) hL.supports
  · exact Counts.pos_modify (by omega)
  · simp only [Counts.get_modify, Block.unheld]
    split <;> omega

theorem takeBack (hL : L.Sound) (hb : L.heap.blocks.get? l = some b)
    (htake : b.takeBack k n = some b') : Sound { L with heap := L.heap.setBlock l b' } := by
  obtain ⟨hlent, hcount, rfl⟩ := Block.takeBack_eq_some htake
  refine hL.of_balance hb rfl rfl rfl ?_ (fun _ _ _ => rfl) (fun j => ?_) hL.supports
  · exact Counts.pos_modify (by omega)
  · simp only [Counts.get_modify, Block.unheld]
    split
    · next hj =>
      subst hj
      omega
    · omega

/-- No handle holds a unit of a block that was not allocated yet. -/
theorem holders_next (hL : L.Sound) (k : Kind) : holders k L.heap.blocks.next L.handles = 0 := by
  refine Multiset.countP_eq_zero.2 fun h hh hhold => ?_
  obtain ⟨b, hb⟩ := hL.exists_block hh hhold.2
  exact Nat.lt_irrefl _ (Table.lt_next_of_get? hb)

theorem count_finishing_next (hL : L.Sound) : L.finishing.count L.heap.blocks.next = 0 := by
  refine Multiset.count_eq_zero.2 fun hmem => ?_
  obtain ⟨b, hb⟩ := hL.finishing _ hmem
  exact Nat.lt_irrefl _ (Table.lt_next_of_get? hb)

/-- Old handles rest on what they rested on, and the new owner on the new block. -/
theorem supports_adopt (hL : L.Sound) (ty : Ty) (c : Option (Content.Of ty)) (layout : Layout)
    (action : ReleaseAction) : ∀ h ∈ .adopted ty c L.heap ::ₘ L.handles,
      ((L.heap.keep (c.map Subtype.val)).1.allocate layout
        (L.heap.keep (c.map Subtype.val)).2 action).1.Supports h := by
  intro h hh
  rcases Multiset.mem_cons.1 hh with rfl | hh
  · refine ⟨fun hnone => (by cases hnone), fun l hl => ?_⟩
    obtain rfl : L.heap.blocks.next = l := Option.some.inj hl
    refine ⟨_, by rw [Heap.get?_allocate, Heap.blocks_keep, if_pos rfl], ?_, fun q hq => ?_⟩
    · cases c <;> simp [Handle.adopted]
    · obtain ⟨c', rfl, rfl⟩ := Option.map_eq_some_iff.1 hq
      refine .inr ⟨L.heap.resources.next, by simp, rfl, fun x hx => ?_⟩
      rw [Option.map_some, Heap.resources_allocate, Heap.get?_resources_keep_next] at hx
      cases hx
      exact Content.hasPart_extent c'.2
  · refine (hL.supports h hh).mono (fun l b _ hb => ⟨b, ?_, rfl⟩) fun l b r x' _ hb hr hx' => ?_
    · have hne := Nat.ne_of_lt (Table.lt_next_of_get? hb)
      rw [Heap.get?_allocate, Heap.blocks_keep, if_neg hne, hb]
    · rw [Heap.resources_allocate, Heap.get?_resources_keep _ _ (hL.stored l b r hb hr)] at hx'
      exact ⟨x', hx', rfl⟩

theorem adopt (hL : L.Sound) (ty : Ty) (c : Option (Content.Of ty)) (layout : Layout)
    (action : ReleaseAction) (trace : List Event) :
    Sound { L with
      heap := ((L.heap.keep (c.map Subtype.val)).1.allocate layout
        (L.heap.keep (c.map Subtype.val)).2 action).1,
      handles := .adopted ty c L.heap ::ₘ L.handles,
      trace } := by
  have hcopy : ∀ k l, l ≠ L.heap.blocks.next →
      holders k l (.adopted ty c L.heap ::ₘ L.handles) = holders k l L.handles := by
    intro k l hne
    simp [Handle.adopted, Ne.symm hne]
  -- the new block has the resource that was just stored, which no other block has
  have hnew : ∀ r, (L.heap.keep (c.map Subtype.val)).2 = some r → r = L.heap.resources.next ∧
      ∃ x, (L.heap.keep (c.map Subtype.val)).1.resources.get? r = some x := by
    intro r hr
    cases c with
    | none => cases hr
    | some c =>
      obtain rfl : L.heap.resources.next = r := by simpa using hr
      exact ⟨rfl, _, Heap.get?_resources_keep_next ..⟩
  have hkeep : ∀ r, (∃ x, L.heap.resources.get? r = some x) →
      ∃ x, (L.heap.keep (c.map Subtype.val)).1.resources.get? r = some x := by
    rintro r ⟨x, hx⟩
    exact ⟨x, by rw [Heap.get?_resources_keep _ _ (Table.lt_next_of_get? hx), hx]⟩
  have hold : ∀ l b r, L.heap.blocks.get? l = some b → b.resource = some r →
      r ≠ L.heap.resources.next := fun l b r hb hr => Nat.ne_of_lt (hL.stored l b r hb hr)
  refine ⟨?_, hL.supports_adopt ty c layout action, ?_, ?_, ?_, ?_, ?_, hL.nodup_doomed⟩
  · intro l b hb
    simp only [Heap.get?_allocate, Heap.blocks_keep] at hb
    split at hb
    · next heq =>
      cases hb
      subst heq
      have hnext := hL.holders_next
      have hcount := hL.count_finishing_next
      refine ⟨fun k => ?_, by simp, by simp, by simp [common, hcount]⟩
      cases k <;> simp [Handle.adopted, hnext, hcount, common, Block.unheld, Counts.get]
    · next hne => exact (hL.accounts l b hb).congr (fun k => hcopy k l hne) rfl
  · intro l hl
    obtain ⟨b, hb⟩ := hL.finishing l hl
    refine ⟨b, ?_⟩
    rw [Heap.get?_allocate, Heap.blocks_keep, if_neg (Nat.ne_of_lt (Table.lt_next_of_get? hb)), hb]
  · intro l b r hb hact hr
    simp only [Heap.get?_allocate, Heap.blocks_keep] at hb
    split at hb
    · cases hb
      obtain ⟨rfl, hx⟩ := hnew r hr
      refine ⟨hx, fun hmem => ?_⟩
      obtain ⟨x, hx⟩ := hL.doomed _ hmem
      exact Nat.lt_irrefl _ (Table.lt_next_of_get? hx)
    · obtain ⟨hx, hmem⟩ := hL.stays l b r hb hact hr
      exact ⟨hkeep r hx, hmem⟩
  · intro l b r hb hr
    simp only [Heap.get?_allocate, Heap.blocks_keep] at hb
    split at hb
    · cases hb
      obtain ⟨-, x, hx⟩ := hnew r hr
      exact Table.lt_next_of_get? hx
    · exact Nat.lt_of_lt_of_le (hL.stored l b r hb hr) (Heap.next_resources_le_keep ..)
  · intro l l' b b' r hb hb' hr hr'
    simp only [Heap.get?_allocate, Heap.blocks_keep] at hb hb'
    split at hb <;> split at hb'
    · next h h' => exact h.trans h'.symm
    · cases hb
      exact absurd (hnew r hr).1 (hold l' b' r hb' hr')
    · cases hb'
      exact absurd (hnew r hr').1 (hold l b r hb hr)
    · exact hL.unshared l l' b b' r hb hb' hr hr'
  · exact fun r hr => hkeep r (hL.doomed r hr)

theorem orphan (hL : L.Sound) (c : Content) : Sound { L with
    heap := (L.heap.store c).1, doomed := L.heap.resources.next ::ₘ L.doomed } := by
  have hget : ∀ r, r < L.heap.resources.next →
      (L.heap.store c).1.resources.get? r = L.heap.resources.get? r :=
    fun r hr => Heap.get?_resources_keep L.heap (some c) hr
  have hkeep : ∀ r, (∃ x, L.heap.resources.get? r = some x) →
      ∃ x, (L.heap.store c).1.resources.get? r = some x := by
    rintro r ⟨x, hx⟩
    exact ⟨x, by rw [hget r (Table.lt_next_of_get? hx), hx]⟩
  refine ⟨fun l b hb => (hL.accounts l b hb).congr (fun _ => rfl) rfl, ?_, hL.finishing, ?_, ?_,
    hL.unshared, ?_, ?_⟩
  · intro h hh
    refine (hL.supports h hh).mono (fun l b _ hb => ⟨b, hb, rfl⟩) fun l b r x' _ hb hr hx' => ?_
    rw [hget r (hL.stored l b r hb hr)] at hx'
    exact ⟨x', hx', rfl⟩
  · intro l b r hb hact hr
    obtain ⟨hx, hmem⟩ := hL.stays l b r hb hact hr
    refine ⟨hkeep r hx, fun h => ?_⟩
    rcases Multiset.mem_cons.1 h with rfl | h
    · exact Nat.lt_irrefl _ (hL.stored l b _ hb hr)
    · exact hmem h
  · intro l b r hb hr
    exact Nat.lt_of_lt_of_le (hL.stored l b r hb hr)
      (Heap.next_resources_le_keep L.heap (some c))
  · intro r hr
    rcases Multiset.mem_cons.1 hr with rfl | hr
    · exact ⟨_, Heap.get?_resources_keep_next L.heap c⟩
    · exact hkeep r (hL.doomed r hr)
  · refine Multiset.nodup_cons.2 ⟨fun hmem => ?_, hL.nodup_doomed⟩
    obtain ⟨x, hx⟩ := hL.doomed _ hmem
    exact Nat.lt_irrefl _ (Table.lt_next_of_get? hx)

/-- A handle that points at a part of what it pointed at. -/
theorem supports_repoint (hL : L.Sound) (hh : h ∈ L.handles) {f : Projection} {ty : Ty}
    {pointer : Option Pointer} (hty : f.target h.kind h.ty = some ty)
    (hpointer : L.heap.pointed h f = .ok pointer) : L.heap.Supports { h with ty, pointer } := by
  have hs := hL.supports h hh
  simp only [Heap.pointed] at hpointer
  split at hpointer
  · next hq =>
    cases hpointer
    refine ⟨fun _ => rfl, fun l hl => ?_⟩
    obtain ⟨b, hb, hnone, -⟩ := hs.allocated l hl
    exact ⟨b, hb, by rw [← hnone, hq], fun q hq' => by cases hq'⟩
  · next q hq =>
    obtain ⟨q', happly, rfl⟩ :
        ∃ q', f.apply (L.heap.textBehind q) q = .ok q' ∧ some q' = pointer := by
      cases happly : f.apply (L.heap.textBehind q) q with
      | error => simp [happly, Except.map] at hpointer
      | ok q' => exact ⟨q', rfl, by simpa [happly, Except.map] using hpointer⟩
    refine ⟨fun hnone => ?_, fun l hl => ?_⟩
    · rw [hs.pointer_eq_none hnone] at hq
      cases hq
    obtain ⟨b, hb, hnone, hpoints⟩ := hs.allocated l hl
    refine ⟨b, hb, by simpa [hq] using hnone, fun q'' hq'' => ?_⟩
    obtain rfl : q' = q'' := Option.some.inj hq''
    by_cases hf : f = .constant
    · subst hf
      cases happly
      exact .inl rfl
    · have hregion := Projection.region_apply hf happly
      rcases hpoints q hq with hq | ⟨r, hr, hqr, hpart⟩
      · exact .inl (hregion.trans hq)
      · refine .inr ⟨r, hr, hregion.trans hqr, fun x hx => ?_⟩
        refine Content.hasPart_apply (hpart x hx) hf hty (fun s hs => ?_) happly
        obtain ⟨c, links⟩ := x
        cases hs
        simp [Heap.textBehind, hqr, hx]

theorem repoint (hL : L.Sound) (hL' : L.handles = h ::ₘ hs) {f : Projection} {ty : Ty}
    {pointer : Option Pointer} (hty : f.target h.kind h.ty = some ty)
    (hpointer : L.heap.pointed h f = .ok pointer) :
    Sound { L with handles := { h with ty, pointer } ::ₘ hs } := by
  refine hL.of_handles rfl (fun k l => by simp [hL']) rfl rfl fun g hg => ?_
  rcases Multiset.mem_cons.1 hg with rfl | hg
  · exact hL.supports_repoint (hL' ▸ Multiset.mem_cons_self h hs) hty hpointer
  · exact hL.supports g (hL' ▸ Multiset.mem_cons_of_mem hg)

theorem relink (hL : L.Sound) (r : Nat) {f : Resource → Resource}
    (hf : ∀ x, (f x).content = x.content) : Sound { L with heap := L.heap.modifyResource r f } := by
  have hget : ∀ r', (L.heap.modifyResource r f).resources.get? r' =
      if r = r' then (L.heap.resources.get? r').map f else L.heap.resources.get? r' :=
    fun r' => Table.get?_modify ..
  have hkeep : ∀ r', (∃ x, L.heap.resources.get? r' = some x) →
      ∃ x, (L.heap.modifyResource r f).resources.get? r' = some x := by
    rintro r' ⟨x, hx⟩
    rw [hget, hx]
    split <;> exact ⟨_, rfl⟩
  refine ⟨fun l b hb => (hL.accounts l b hb).congr (fun _ => rfl) rfl, ?_, hL.finishing, ?_, ?_,
    hL.unshared, fun r' hr' => hkeep r' (hL.doomed r' hr'), hL.nodup_doomed⟩
  · intro h hh
    refine (hL.supports h hh).mono (fun l b _ hb => ⟨b, hb, rfl⟩) fun l b r' x' _ hb hr hx' => ?_
    rw [hget] at hx'
    split at hx'
    · obtain ⟨x, hx, rfl⟩ := Option.map_eq_some_iff.1 hx'
      exact ⟨x, hx, hf x⟩
    · exact ⟨x', hx', rfl⟩
  · intro l b r' hb hact hr
    obtain ⟨hx, hmem⟩ := hL.stays l b r' hb hact hr
    exact ⟨hkeep r' hx, hmem⟩
  · intro l b r' hb hr
    simp only [Heap.modifyResource, Table.next_modify]
    exact hL.stored l b r' hb hr

theorem destroy (hL : L.Sound) {r : Nat} {rs : Multiset Nat} (hL' : L.doomed = r ::ₘ rs) :
    Sound { L with
      heap := { L.heap with resources := L.heap.resources.erase r }, doomed := rs } := by
  have hr : r ∈ L.doomed := hL' ▸ Multiset.mem_cons_self r rs
  have hnodup : r ∉ rs ∧ rs.Nodup := Multiset.nodup_cons.1 (hL' ▸ hL.nodup_doomed)
  have hkeep : ∀ r', r' ≠ r → (∃ x, L.heap.resources.get? r' = some x) →
      ∃ x, (L.heap.resources.erase r).get? r' = some x := by
    rintro r' hne ⟨x, hx⟩
    exact ⟨x, by rw [Table.get?_erase, if_neg (Ne.symm hne), hx]⟩
  refine ⟨fun l b hb => (hL.accounts l b hb).congr (fun _ => rfl) rfl, ?_, hL.finishing, ?_, ?_,
    hL.unshared, ?_, hnodup.2⟩
  · intro h hh
    refine (hL.supports h hh).mono (fun l b _ hb => ⟨b, hb, rfl⟩) fun l b r' x' _ hb hr hx' => ?_
    rw [Table.get?_erase] at hx'
    split at hx'
    · cases hx'
    · exact ⟨x', hx', rfl⟩
  · intro l b r' hb hact hr'
    obtain ⟨hx, hmem⟩ := hL.stays l b r' hb hact hr'
    refine ⟨hkeep r' (fun heq => hmem (heq ▸ hr)) hx, fun h => hmem ?_⟩
    exact hL' ▸ Multiset.mem_cons_of_mem h
  · intro l b r' hb hr'
    simp only [Table.next_erase]
    exact hL.stored l b r' hb hr'
  · intro r' hr'
    refine hkeep r' (fun heq => hnodup.1 (heq ▸ hr')) (hL.doomed r' ?_)
    exact hL' ▸ Multiset.mem_cons_of_mem hr'

end Sound

/-- An entry keeps a sound ledger sound. -/
theorem Entry.sound (hL : L.Sound) (h : Entry p L L') : L'.Sound := by
  cases h with
  | note e => exact hL.of_handles rfl (fun _ _ => rfl) rfl rfl hL.supports
  | addEmpty h hl hq =>
    refine hL.of_handles rfl (fun k l => by simp [hl]) rfl rfl fun g hg => ?_
    rcases Multiset.mem_cons.1 hg with rfl | hg
    · exact ⟨fun _ => hq, fun l hl' => by rw [hl] at hl'; cases hl'⟩
    · exact hL.supports g hg
  | dropEmpty h hs hL' hl =>
    refine hL.of_handles rfl (fun k l => by simp [hL', hl]) rfl rfl fun g hg => ?_
    exact hL.supports g (hL' ▸ Multiset.mem_cons_of_mem hg)
  | share h k l b hh hl hb hk hc => exact hL.share hh hl hb hk hc
  | overflow k l b hb hc => exact hL.overflow hb hc
  | promote h l b b' hh hl hb hp => exact hL.promote hh hl hb hp
  | letGo h hs l b hL' hl hb hc => exact hL.letGo hL' hl hb hc
  | lend k n l b b' hb hlend => exact hL.lend hb hlend
  | takeBack k n l b b' hb htake => exact hL.takeBack hb htake
  | adopt ty c layout action => exact hL.adopt ty c layout action _
  | orphan c => exact hL.orphan c
  | repoint c h hs f ty pointer hL' _ _ hty hpointer => exact hL.repoint hL' hty hpointer
  | relink r f hf => exact hL.relink r hf
  | destroy r rs hL' => exact hL.destroy hL'

theorem Entries.sound (hL : L.Sound) (h : Entries p L L') : L'.Sound := by
  induction h with
  | refl => exact hL
  | tail _ h ih => exact h.sound ih

/-! ### Turns -/

namespace Sound

variable {h : Handle} {hs : Multiset Handle} {ls : Multiset Nat} {l : Nat} {b : Block}

/-- The release action of a block runs while the block is in the ledger's list, and once only. -/
theorem of_mem_finishing (hL : L.Sound) (hl : l ∈ L.finishing)
    (hb : L.heap.blocks.get? l = some b) :
    b.action = none ∧ L.finishing.count l = 1 ∧ b.unwound = false ∧ b.counts.strong = 0 := by
  have hacc := hL.accounts l b hb
  have hcount : 0 < L.finishing.count l := Multiset.count_pos.2 hl
  have hcommon := hacc.common_le
  simp only [common] at hcommon
  have haction : b.action.isSome = false := by
    cases h : b.action.isSome with
    | false => rfl
    | true =>
      rw [h, Bool.toNat_true] at hcommon
      omega
  have hunwound : b.unwound = false := by
    cases h : b.unwound with
    | false => rfl
    | true =>
      rw [h, Bool.toNat_true] at hcommon
      omega
  have hstrong := mt hacc.live.2 (by simp [haction])
  exact ⟨by simpa using haction, by omega, hunwound, by omega⟩

theorem release (hL : L.Sound) (hL' : L.handles = h ::ₘ hs) (hk : h.kind = .strong)
    (hl : h.block = some l) (hb : L.heap.blocks.get? l = some b) (hc : b.counts.strong = 1)
    (trace : List Event) :
    Sound { L with
      heap := L.heap.setBlock l { b.removeUnit .strong with action := none },
      handles := hs,
      finishing := l ::ₘ L.finishing,
      doomed := b.resource.toList + L.doomed,
      trace } := by
  have hacc := hL.accounts l b hb
  have haction : b.action.isSome := hacc.live.2 (by omega)
  refine hL.of_setBlock hb rfl rfl (by simp) ?_ ?_ ?_ ?_ ?_ ?_
  · intro k l' hne
    simp [hL', hl, Ne.symm hne]
  · intro l' hne
    rw [Multiset.count_cons_of_ne hne]
  · have hcommon := hacc.common_le
    simp only [common, haction, Bool.toNat_true] at hcommon
    refine ⟨fun k => ?_, ?_, hacc.weak_pos, ?_⟩
    · have hcounted := hacc.counted k
      simp only [hL', holders_cons, hk, hl, and_true, common, haction, Bool.toNat_true] at hcounted
      simp only [Block.removeUnit, Counts.get_modify, Block.unheld, common, Multiset.count_cons_self,
        Option.isSome_none, Bool.toNat_false] at hcounted ⊢
      cases k <;> simp at hcounted ⊢ <;> omega
    · simp [Block.removeUnit, hc]
    · simp only [common, Block.removeUnit, Multiset.count_cons_self, Option.isSome_none,
        Bool.toNat_false]
      omega
  · intro g hg
    exact hL.supports g (hL' ▸ Multiset.mem_cons_of_mem hg)
  · intro r hr
    rcases Multiset.mem_add.1 hr with hr | hr
    · exact .inr ⟨haction, rfl, by simpa using hr⟩
    · exact .inl hr
  · cases hr : b.resource with
    | none => simpa using hL.nodup_doomed
    | some r =>
      have hmem := (hL.stays l b r hb haction hr).2
      simpa using ⟨hmem, hL.nodup_doomed⟩

theorem finish (hL : L.Sound) (hL' : L.finishing = l ::ₘ ls)
    (hb : L.heap.blocks.get? l = some b) (hc : 1 < b.counts.weak) :
    Sound { L with heap := L.heap.setBlock l (b.removeUnit .weak), finishing := ls } := by
  have hacc := hL.accounts l b hb
  have hmem : l ∈ L.finishing := hL' ▸ Multiset.mem_cons_self l ls
  obtain ⟨haction, hcount, hunwound, hstrong⟩ := hL.of_mem_finishing hmem hb
  rw [hL', Multiset.count_cons_self] at hcount
  refine hL.of_setBlock hb rfl rfl id (fun _ _ _ => rfl) ?_ ?_ hL.supports (fun _ => .inl)
    hL.nodup_doomed
  · intro l' hne
    rw [hL', Multiset.count_cons_of_ne hne]
  · refine ⟨fun k => ?_, hacc.live, Nat.sub_pos_of_lt hc, ?_⟩
    · have hcounted := hacc.counted k
      simp only [common, haction, hL', Multiset.count_cons_self, hunwound] at hcounted
      simp only [Block.removeUnit, Counts.get_modify, Block.unheld, common, haction, hunwound]
        at hcounted ⊢
      cases k <;> simp at hcounted ⊢ <;> omega
    · simp only [common, Block.removeUnit, haction, hunwound, Option.isSome_none, Bool.toNat_false]
      omega

theorem abandon (hL : L.Sound) (hL' : L.finishing = l ::ₘ ls)
    (hb : L.heap.blocks.get? l = some b) :
    Sound { L with heap := L.heap.setBlock l { b with unwound := true }, finishing := ls } := by
  have hacc := hL.accounts l b hb
  have hmem : l ∈ L.finishing := hL' ▸ Multiset.mem_cons_self l ls
  obtain ⟨haction, hcount, hunwound, hstrong⟩ := hL.of_mem_finishing hmem hb
  rw [hL', Multiset.count_cons_self] at hcount
  refine hL.of_setBlock hb rfl rfl id (fun _ _ _ => rfl) ?_ ?_ hL.supports (fun _ => .inl)
    hL.nodup_doomed
  · intro l' hne
    rw [hL', Multiset.count_cons_of_ne hne]
  · refine ⟨fun k => ?_, hacc.live, hacc.weak_pos, ?_⟩
    · have hcounted := hacc.counted k
      simp only [common, haction, hL', Multiset.count_cons_self, hunwound] at hcounted
      simp only [Block.unheld, common, haction] at hcounted ⊢
      cases k <;> simp at hcounted ⊢ <;> omega
    · simp only [common, haction, Option.isSome_none, Bool.toNat_false, Bool.toNat_true]
      omega

/-- The owners of a block hold no weak unit any more if an observer holds the last one. -/
theorem of_last_observer (hL : L.Sound) (hh : h ∈ L.handles) (hk : h.kind = .weak)
    (hl : h.block = some l) (hb : L.heap.blocks.get? l = some b) (hc : b.counts.weak = 1) :
    b.action = none ∧ l ∉ L.finishing ∧ b.unwound = false := by
  have hweak := (hL.accounts l b hb).weak
  have hpos := holders_pos hh hk hl
  have hcommon : L.common l b = 0 := by omega
  simp only [common, Nat.add_eq_zero_iff] at hcommon
  obtain ⟨⟨haction, hcount⟩, hunwound⟩ := hcommon
  exact ⟨by simpa using haction, Multiset.count_eq_zero.1 hcount, by simpa using hunwound⟩

/-- A block that is freed has no handle but the one that goes, and its release action is over. -/
theorem free (hL : L.Sound) (hL' : L.handles = h ::ₘ hs) (hk : h.kind = .weak)
    (hl : h.block = some l) (hb : L.heap.blocks.get? l = some b) (hc : b.counts.weak = 1)
    (trace : List Event) :
    Sound { L with
      heap := { L.heap with blocks := L.heap.blocks.erase l }, handles := hs, trace } := by
  have hacc := hL.accounts l b hb
  have hh : h ∈ L.handles := hL' ▸ Multiset.mem_cons_self h hs
  obtain ⟨haction, hfinishing, -⟩ := hL.of_last_observer hh hk hl hb hc
  have hstrong := mt hacc.live.2 (by simp [haction])
  have hweak := hacc.weak
  have hheld := hacc.strong
  simp only [hL', holders_cons, hk, hl, and_self, if_true] at hweak
  simp only [hL', holders_cons, hk, reduceCtorEq, false_and, if_false] at hheld
  have hnone : ∀ k, holders k l hs = 0 := by
    intro k
    cases k <;> omega
  refine hL.of_erase rfl ?_ (fun _ _ => rfl) ?_ hfinishing rfl
  · intro k l' hne
    simp [hL', hl, Ne.symm hne]
  · intro g hg
    refine ⟨hL.supports g (hL' ▸ Multiset.mem_cons_of_mem hg), fun hgl => ?_⟩
    have hpos := holders_pos hg rfl hgl
    rw [hnone] at hpos
    exact Nat.lt_irrefl 0 hpos

theorem finishFree (hL : L.Sound) (hL' : L.finishing = l ::ₘ ls)
    (hb : L.heap.blocks.get? l = some b) (hc : b.counts.weak = 1) (trace : List Event) :
    Sound { L with
      heap := { L.heap with blocks := L.heap.blocks.erase l }, finishing := ls, trace } := by
  have hacc := hL.accounts l b hb
  have hmem : l ∈ L.finishing := hL' ▸ Multiset.mem_cons_self l ls
  obtain ⟨haction, hcount, hunwound, hstrong⟩ := hL.of_mem_finishing hmem hb
  have hcommon : L.common l b = 1 := by simp [common, haction, hcount, hunwound]
  have hweak := hacc.weak
  have hheld := hacc.strong
  have hnone : ∀ k, holders k l L.handles = 0 := by
    intro k
    cases k <;> omega
  rw [hL', Multiset.count_cons_self] at hcount
  have hrest : ls.count l = 0 := by omega
  refine hL.of_erase rfl (fun _ _ _ => rfl) ?_ ?_ ?_ rfl
  · intro l' hne
    rw [hL', Multiset.count_cons_of_ne hne]
  · intro g hg
    refine ⟨hL.supports g hg, fun hgl => ?_⟩
    have hpos := holders_pos hg rfl hgl
    rw [hnone] at hpos
    exact Nat.lt_irrefl 0 hpos
  · exact Multiset.count_eq_zero.1 hrest

end Sound

/-- A turn keeps a sound ledger sound. -/
theorem Turn.sound (hL : L.Sound) (h : Turn L L') : L'.Sound := by
  cases h with
  | release h hs l b hL' hk hl hb hc => exact hL.release hL' hk hl hb hc _
  | finish l ls b hL' hb hc => exact hL.finish hL' hb hc
  | abandon l ls b hL' hb => exact hL.abandon hL' hb
  | free h hs l b hL' hk hl hb hc => exact hL.free hL' hk hl hb hc _
  | finishFree l ls b hL' hb hc => exact hL.finishFree hL' hb hc _

/-- In the beginning there is nothing to account for. -/
theorem sound_init : (({} : Machine).ledger).Sound := by
  have hblocks : ∀ l b, (({} : Machine).ledger).heap.blocks.get? l ≠ some b :=
    fun l b h => by cases (Table.get?_empty l).symm.trans h
  exact ⟨fun l b hb => absurd hb (hblocks l b), fun h hh => absurd hh (Multiset.notMem_zero h),
    fun l hl => absurd hl (Multiset.notMem_zero l), fun l b _ hb => absurd hb (hblocks l b),
    fun l b _ hb => absurd hb (hblocks l b), fun l _ b _ _ hb => absurd hb (hblocks l b),
    fun r hr => absurd hr (Multiset.notMem_zero r), Multiset.nodup_zero⟩

end Ledger

end SharedOwnership
