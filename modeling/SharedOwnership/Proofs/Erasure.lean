import SharedOwnership.Proofs.Expiry

/-!
# Type erasure is faithful

A handle may be projected, downgraded and locked again until its type and its pointer have nothing
to do with what its block was made for. Yet whichever handle is the last to go, the release action
that is started is the one that the block was made with, on the resource that it was made for, and
the block is freed with the layout that it was allocated with.

## Main definitions

* `Supply`, `Command.Supplies` — what a command supplies for a new block.
* `Machine.Constructs` — whether a step makes a block.
* `Machine.Faithful` — whether the teardown of a block uses what was supplied for it.

## Main results

* `Machine.faithful_of_reachable` — every block was made by a step of the run, and its teardown
  uses what was supplied there.
-/

namespace SharedOwnership

/-! ### What is supplied -/

/-- What a command supplies for a new block. -/
structure Supply where
  ty : Ty
  /-- The data of the resource; none for a null pointer. -/
  content : Option (Content.Of ty)
  /-- What the release action carries, besides its entry. -/
  carried : Layout
  action : ReleaseAction

namespace Supply

/-- The layout that the block is allocated with. -/
def layout (a : Supply) : Layout := .block a.ty.pointerSize a.carried

/-- The resource that the block is made for, in the heap that it comes into. -/
def resource (a : Supply) (heap : Heap) : Option Nat := a.content.map fun _ => heap.resources.next

/-- The resource that is handed over comes into the heap. -/
theorem label_keep (a : Supply) (heap : Heap) :
    (heap.keep (a.content.map Subtype.val)).2 = a.resource heap := by
  rw [Heap.label_keep, Option.map_map]
  rfl

/-- The heap with the new block and its resource. -/
def adopt (a : Supply) (heap : Heap) : Heap :=
  ((heap.keep (a.content.map Subtype.val)).1.allocate a.layout (a.resource heap) a.action).1

theorem get?_blocks_adopt (a : Supply) (heap : Heap) :
    (a.adopt heap).blocks.get? heap.blocks.next =
      some { layout := a.layout, resource := a.resource heap, action := some a.action } := by
  rw [adopt, Heap.get?_allocate, Heap.blocks_keep, if_pos rfl]

theorem next_blocks_adopt (a : Supply) (heap : Heap) :
    (a.adopt heap).blocks.next = heap.blocks.next + 1 := by
  simp [adopt, Heap.allocate]

/-- The resource that a block is made for has the data that were supplied. -/
theorem get?_resources_adopt {a : Supply} {heap : Heap} {r : Nat}
    (hr : a.resource heap = some r) : ∃ x, (a.adopt heap).resources.get? r = some x ∧
      a.content.map Subtype.val = some x.content := by
  obtain ⟨c, hc, rfl⟩ := Option.map_eq_some_iff.1 hr
  refine ⟨{ content := c.1 }, ?_, by rw [hc, Option.map_some]⟩
  rw [adopt, Heap.resources_allocate, hc]
  exact Heap.get?_resources_keep_next heap c.1

end Supply

/-- What a command supplies when it is carried out in the state `s`. -/
inductive Command.Supplies (s : State) : Command → Supply → Prop
  | create (target : String) (ty : Ty) (content : Content.Of ty) (onFailure : OnFailure)
      (fails : Bool) :
    Supplies s (.create target ty content onFailure fails) ⟨ty, some content, .none, .discard⟩
  | adopt (target : String) (ty : Ty) (content : Option (Content.Of ty)) (onFailure : OnFailure)
      (terms : Terms) (script : List Command) :
    Supplies s (.adopt target ty content onFailure terms script)
      ⟨ty, content, terms.carried, .scripted (s.numbered + 1) ty script terms.panics⟩
  | replaceNull (handle : String) (h : Handle) (terms : Terms) (script : List Command)
      (hg : s.slots.get? handle = some h) :
    Supplies s (.replace handle .null terms script)
      ⟨h.ty, none, terms.carried, .scripted (s.numbered + 1) h.ty script terms.panics⟩
  | replace (handle : String) (h : Handle) (value : Datum) (content : Content.Of h.ty)
      (terms : Terms) (script : List Command) (hg : s.slots.get? handle = some h)
      (hcontent : value.content h.ty = .ok content) :
    Supplies s (.replace handle value terms script)
      ⟨h.ty, some content, terms.carried, .scripted (s.numbered + 1) h.ty script terms.panics⟩

/-! ### How blocks are made -/

namespace State

variable {s s' : State} {a : Supply}

/-- The state `s'` has the new block that the state `s` has not. -/
structure Adopts (s : State) (a : Supply) (s' : State) : Prop where
  heap : s'.heap = a.adopt s.heap
  trace : s'.trace = .allocated s.heap.blocks.next a.layout :: s.trace

/-- An adoption that does not fail makes a block of what is supplied. -/
theorem adopts_adoption_false (s : State) (a : Supply) :
    s.Adopts a (s.adoption a.ty a.content a.carried a.action false).1 := by
  rw [adoption_false, a.label_keep]
  exact ⟨rfl, rfl⟩

/-- An adoption makes a block of what is supplied, or it fails and leaves the blocks alone. -/
theorem adopts_adoption (s : State) (a : Supply) (fails : Bool) :
    (s.adoption a.ty a.content a.carried a.action fails).1.heap.blocks = s.heap.blocks ∨
      s.Adopts a (s.adoption a.ty a.content a.carried a.action fails).1 := by
  cases fails with
  | true =>
    refine .inl ?_
    rw [adoption_true, heap_start]
    exact Heap.blocks_keep ..
  | false => exact .inr (s.adopts_adoption_false a)

theorem adopts_adoptInto (s : State) (target : String) (a : Supply) (onFailure : OnFailure)
    (fails : Bool) :
    (s.adoptInto target a.ty a.content a.carried a.action onFailure fails).1.heap.blocks =
        s.heap.blocks ∨
      s.Adopts a (s.adoptInto target a.ty a.content a.carried a.action onFailure fails).1 := by
  have hadopts := s.adopts_adoption a fails
  rw [adoptInto]
  split <;> next s' _ hmade =>
    rw [hmade] at hadopts
    exact hadopts.imp id fun h => ⟨h.heap, h.trace⟩

theorem adopts_replace (s : State) (handle : String) (h : Handle)
    (content : Option (Content.Of h.ty)) (terms : Terms) (script : List Command) :
    (s.replace handle h content terms script).1.heap.blocks = s.heap.blocks ∨
      s.Adopts ⟨h.ty, content, terms.carried,
        .scripted (s.numbered + 1) h.ty script terms.panics⟩
        (s.replace handle h content terms script).1 := by
  have hadopts := adopts_adoption { s with numbered := s.numbered + 1 } ⟨h.ty, content,
    terms.carried, .scripted (s.numbered + 1) h.ty script terms.panics⟩ terms.fails
  rw [replace]
  simp only [number]
  split <;> next s' _ hmade =>
    rw [hmade] at hadopts
    exact hadopts.imp id fun h => ⟨h.heap, h.trace⟩

/-- A command that adopts makes a block of what it supplies, or it leaves the blocks alone. -/
theorem adopts_begin (s : State) {c : Command} (hc : c.adopts) :
    (s.begin c).1.heap.blocks = s.heap.blocks ∨
      ∃ a, c.Supplies s a ∧ s.Adopts a (s.begin c).1 := by
  rw [begin]
  split
  · next next hplan =>
    cases c with
    | create target ty content onFailure fails =>
      simp only [plan, bind_eq_ok] at hplan
      obtain ⟨_, -, hplan⟩ := hplan
      cases hplan
      exact (s.adopts_adoptInto target ⟨ty, some content, .none, .discard⟩ onFailure fails).imp id
        fun h => ⟨_, .create target ty content onFailure fails, h⟩
    | adopt target ty content onFailure terms script =>
      simp only [plan, bind_eq_ok] at hplan
      obtain ⟨_, -, hplan⟩ := hplan
      cases hplan
      exact (s.number.1.adopts_adoptInto target ⟨ty, content, terms.carried,
        .scripted (s.numbered + 1) ty script terms.panics⟩ onFailure terms.fails).imp id
        fun h => ⟨_, .adopt target ty content onFailure terms script, h.heap, h.trace⟩
    | replace handle value terms script =>
      simp only [plan, bind_eq_ok, handle_eq_ok] at hplan
      obtain ⟨h, hg, _, -, hplan⟩ := hplan
      split at hplan
      · cases hplan
        exact (s.adopts_replace handle h none terms script).imp id
          fun hadopts => ⟨_, .replaceNull handle h terms script hg, hadopts⟩
      · obtain ⟨_, hcontent, hplan⟩ := bind_eq_ok.1 hplan
        cases hvalue : value.content h.ty with
        | error reason => simp [hvalue, Functor.map, Except.map] at hcontent
        | ok content =>
          obtain rfl : some content = _ := by
            simpa [hvalue, Functor.map, Except.map] using hcontent
          cases hplan
          exact (s.adopts_replace handle h (some content) terms script).imp id
            fun hadopts => ⟨_, .replace handle h value content terms script hg hvalue, hadopts⟩
    | _ => cases hc
  · exact .inl rfl

end State

/-- A command without a script has a property with all its parts if it has it itself. -/
theorem Command.all_of_not_adopts {p : Command → Prop} {c : Command} (hc : c.adopts = false)
    (h : p c) : c.All p := by
  cases c with
  | create | adopt | replace => cases hc
  | _ => exact h

namespace Ledger

variable {p : Command → Prop} {L L' : Ledger}

/-- Only commands that adopt make blocks. -/
theorem Entries.next_eq (h : Entries p L L') (hp : ∀ c, p c → c.adopts = false) :
    L'.heap.blocks.next = L.heap.blocks.next := by
  induction h with
  | refl => rfl
  | tail _ h ih =>
    refine Eq.trans ?_ ih
    cases h with
    | adopt ty c layout action _ hc =>
      obtain ⟨c, hpc, hadopts⟩ := hc
      exact absurd (hp c hpc) (by simp [hadopts])
    | _ => simp [Heap.modifyResource, Heap.store]

theorem Step.next_eq (h : Step p L L') (hp : ∀ c, p c → c.adopts = false) :
    L'.heap.blocks.next = L.heap.blocks.next := by
  cases h with
  | entries h => exact h.next_eq hp
  | turn M h h' => exact (h'.next_eq hp).trans h.next_eq

end Ledger

namespace Machine

variable {m n k : Machine} {l : Nat} {a : Supply}

/-- The step of the machine `m` makes the block labelled `l` of what its command supplies. -/
structure Constructs (m : Machine) (l : Nat) (a : Supply) : Prop where
  control : m.control = .running
  command : ∃ c rest, m.stack = .perform c :: rest ∧ c.Supplies m.state a
  label : l = m.state.heap.blocks.next
  heap : m.step.state.heap = a.adopt m.state.heap
  trace : m.step.state.trace = .allocated l a.layout :: m.state.trace

/-- Every step but that of a command that adopts makes no block. -/
theorem next_step (hm : m.Reachable) (hc : ∀ c rest, m.control = .running →
    m.stack = .perform c :: rest → c.adopts = false) :
    m.step.state.heap.blocks.next = m.state.heap.blocks.next := by
  obtain ⟨hL, hobeys⟩ := ReachableBy.sound_obeys hm
  let p : Command → Prop := fun c => c.adopts = false
  have hstep : Ledger.Step p m.ledger m.step.ledger := by
    refine step_ledger_of_top hL hobeys.safe fun c rest hcontrol hstack => ?_
    exact Command.all_of_not_adopts (hc c rest hcontrol hstack) (hc c rest hcontrol hstack)
  exact hstep.next_eq fun _ => id

/-- A step that hands out a label makes the block of that label. -/
theorem constructs_of_next_lt (hm : m.Reachable) (hle : m.state.heap.blocks.next ≤ l)
    (hlt : l < m.step.state.heap.blocks.next) : ∃ a, m.Constructs l a := by
  have hne : m.step.state.heap.blocks.next ≠ m.state.heap.blocks.next := by omega
  by_contra hnone
  refine hne (next_step hm fun c rest hcontrol hstack => ?_)
  by_contra hadopts
  obtain ⟨s, control, stack⟩ := m
  obtain rfl : control = .running := hcontrol
  obtain rfl : stack = .perform c :: rest := hstack
  rcases s.adopts_begin (by simpa using hadopts) with hblocks | ⟨a, hsupplies, hheap, htrace⟩
  · exact hne (congrArg Table.next hblocks)
  · have hstep : (step ⟨s, .running, .perform c :: rest⟩).state.heap = a.adopt s.heap := hheap
    have hl : l = s.heap.blocks.next := by
      rw [hstep, a.next_blocks_adopt] at hlt
      exact Nat.le_antisymm (Nat.lt_succ_iff.1 hlt) hle
    exact hnone ⟨a, rfl, ⟨c, rest, rfl, hsupplies⟩, hl, hheap, hl ▸ htrace⟩

/-- Every block was made by a step of the run. -/
theorem exists_constructs (hm : m.Reachable) (hborn : m.state.heap.born l) :
    ∃ (k : Machine) (a : Supply), k.Reachable ∧ k.Constructs l a ∧
      Leads (fun _ => True) k.step m := by
  induction hm with
  | refl =>
    have hnone := Heap.born_iff.1 hborn
    simp [Table.next, Table.empty] at hnone
    omega
  | @tail n m hn hmove ih =>
    have hlater : n.state.heap.born l →
        ∃ (k : Machine) (a : Supply), k.Reachable ∧ k.Constructs l a ∧
          Leads (fun _ => True) k.step m := by
      intro hborn
      obtain ⟨k, a, hk, hconstructs, hleads⟩ := ih hborn
      exact ⟨k, a, hk, hconstructs, hleads.tail hmove⟩
    cases hmove with
    | command => exact hlater hborn
    | step =>
      obtain ⟨hpos, hlt⟩ := Heap.born_iff.1 hborn
      rcases Nat.lt_or_ge l n.state.heap.blocks.next with hold | hnew
      · exact hlater (Heap.born_iff.2 ⟨hpos, hold⟩)
      · obtain ⟨a, hconstructs⟩ := constructs_of_next_lt hn hnew hlt
        exact ⟨n, a, hn, hconstructs, .refl⟩

end Machine

/-! ### What stays -/

/-- The block `b'` is what has become of `b`. -/
structure Block.Inherits (b b' : Block) : Prop where
  layout : b'.layout = b.layout
  resource : b'.resource = b.resource
  action : b'.action = b.action ∨ b'.action = none

namespace Block.Inherits

variable {b b' b'' : Block}

theorem refl (b : Block) : b.Inherits b := ⟨rfl, rfl, .inl rfl⟩

theorem trans (h : b.Inherits b') (h' : b'.Inherits b'') : b.Inherits b'' := by
  refine ⟨h'.layout.trans h.layout, h'.resource.trans h.resource, ?_⟩
  rcases h'.action with heq | hnone
  · rw [heq]
    exact h.action
  · exact .inr hnone

end Block.Inherits

/-- Blocks keep what they were made with, and resources keep their data. -/
structure Heap.Inherits (heap heap' : Heap) : Prop where
  next_blocks : heap.blocks.next ≤ heap'.blocks.next
  next_resources : heap.resources.next ≤ heap'.resources.next
  blocks : ∀ l b', l < heap.blocks.next → heap'.blocks.get? l = some b' →
    ∃ b, heap.blocks.get? l = some b ∧ b.Inherits b'
  resources : ∀ r x', r < heap.resources.next → heap'.resources.get? r = some x' →
    ∃ x, heap.resources.get? r = some x ∧ x'.content = x.content

namespace Heap.Inherits

variable {heap heap' heap'' : Heap} {l : Nat} {b b' : Block}

theorem refl (heap : Heap) : heap.Inherits heap :=
  ⟨le_rfl, le_rfl, fun _ b _ hb => ⟨b, hb, .refl b⟩, fun _ x _ hx => ⟨x, hx, rfl⟩⟩

theorem trans (h : heap.Inherits heap') (h' : heap'.Inherits heap'') : heap.Inherits heap'' := by
  refine ⟨h.next_blocks.trans h'.next_blocks, h.next_resources.trans h'.next_resources,
    fun l b'' hl hb'' => ?_, fun r x'' hr hx'' => ?_⟩
  · obtain ⟨b', hb', hinherits'⟩ := h'.blocks l b'' (hl.trans_le h.next_blocks) hb''
    obtain ⟨b, hb, hinherits⟩ := h.blocks l b' hl hb'
    exact ⟨b, hb, hinherits.trans hinherits'⟩
  · obtain ⟨x', hx', hcontent'⟩ := h'.resources r x'' (hr.trans_le h.next_resources) hx''
    obtain ⟨x, hx, hcontent⟩ := h.resources r x' hr hx'
    exact ⟨x, hx, hcontent'.trans hcontent⟩

theorem setBlock (hb : heap.blocks.get? l = some b) (hinherits : b.Inherits b') :
    heap.Inherits (heap.setBlock l b') := by
  refine ⟨(next_blocks_setBlock ..).ge, le_rfl, fun l' c _ hc => ?_, fun _ x _ hx => ⟨x, hx, rfl⟩⟩
  rw [get?_setBlock hb] at hc
  split at hc
  · next heq =>
    cases hc
    exact ⟨b, heq ▸ hb, hinherits⟩
  · exact ⟨c, hc, .refl c⟩

theorem eraseBlock (heap : Heap) (l : Nat) :
    heap.Inherits { heap with blocks := heap.blocks.erase l } := by
  refine ⟨(Table.next_erase ..).ge, le_rfl, fun l' c _ hc => ⟨c, ?_, .refl c⟩,
    fun _ x _ hx => ⟨x, hx, rfl⟩⟩
  rw [Table.get?_erase] at hc
  split at hc
  · cases hc
  · exact hc

end Heap.Inherits

namespace Ledger

variable {p : Command → Prop} {L L' : Ledger}

theorem Entry.inherits (h : Entry p L L') : L.heap.Inherits L'.heap := by
  have hkeeps := h.keeps
  have hblocks : ∀ l b', l < L.heap.blocks.next → L'.heap.blocks.get? l = some b' →
      ∃ b, L.heap.blocks.get? l = some b ∧ b.Inherits b' := by
    intro l b' hl hb'
    rcases hkeeps.of_get? hb' with ⟨b, hb, halike⟩ | ⟨hnone, -⟩
    · exact ⟨b, hb, halike.layout, halike.resource, .inl halike.action⟩
    · cases (hkeeps.gone l hl hnone).symm.trans hb'
  refine ⟨hkeeps.next_le, ?_, hblocks, fun r x' hr hx' => ?_⟩
  · cases h with
    | adopt ty c layout action =>
      rw [Heap.resources_allocate]
      exact Heap.next_resources_le_keep ..
    | orphan c => simp [Heap.store]
    | relink r f => simp [Heap.modifyResource]
    | destroy r => simp
    | _ => exact le_rfl
  · cases h with
    | adopt ty c layout action =>
      rw [Heap.resources_allocate, Heap.get?_resources_keep _ _ hr] at hx'
      exact ⟨x', hx', rfl⟩
    | orphan c =>
      simp only [Heap.store, Table.get?_insert, if_neg (Nat.ne_of_lt hr)] at hx'
      exact ⟨x', hx', rfl⟩
    | relink r' f hf =>
      simp only [Heap.modifyResource, Table.get?_modify] at hx'
      split at hx'
      · obtain ⟨x, hx, rfl⟩ := Option.map_eq_some_iff.1 hx'
        exact ⟨x, hx, hf x⟩
      · exact ⟨x', hx', rfl⟩
    | destroy r' =>
      simp only [Table.get?_erase] at hx'
      split at hx'
      · cases hx'
      · exact ⟨x', hx', rfl⟩
    | _ => exact ⟨x', hx', rfl⟩

theorem Entries.inherits (h : Entries p L L') : L.heap.Inherits L'.heap := by
  induction h with
  | refl => exact .refl L.heap
  | tail _ h ih => exact ih.trans h.inherits

theorem Turn.inherits (h : Turn L L') : L.heap.Inherits L'.heap := by
  cases h with
  | release h hs l b hL hk hl hb => exact .setBlock hb ⟨rfl, rfl, .inr rfl⟩
  | finish l ls b hL hb => exact .setBlock hb ⟨rfl, rfl, .inl rfl⟩
  | abandon l ls b hL hb => exact .setBlock hb ⟨rfl, rfl, .inl rfl⟩
  | free h hs l => exact .eraseBlock L.heap l
  | finishFree l => exact .eraseBlock L.heap l

theorem Step.inherits (h : Step p L L') : L.heap.Inherits L'.heap := by
  cases h with
  | entries h => exact h.inherits
  | turn M h h' => exact h.inherits.trans h'.inherits

end Ledger

namespace Machine

variable {m n k : Machine} {l : Nat} {a : Supply} {b : Block}

theorem inherits_of_leads (hm : m.Reachable) (h : Leads (fun _ => True) m n) :
    m.state.heap.Inherits n.state.heap := by
  induction h with
  | refl => exact .refl m.state.heap
  | @tail k _ hk hmove ih =>
    cases hmove with
    | step =>
      obtain ⟨hL, hobeys⟩ := ReachableBy.sound_obeys (hm.leads hk)
      exact ih.trans (step_ledger hL hobeys).inherits
    | command => exact ih

/-! ### The main result -/

/-- The teardown of the block labelled `l` uses what was supplied for it. -/
structure Faithful (m : Machine) (l : Nat) (a : Supply) (resource : Option Nat) : Prop where
  /-- The release action that is entered is the one that was supplied, and it is given the resource
  that was supplied. -/
  released : m.Starts l → ∃ rest, m.step.stack = a.action.tasks resource ++ .finish l :: rest ∧
    m.step.state.trace = ((m.state.record (.releasing l)).start a.action resource).1.trace
  /-- The resource is there, and it has the data that were supplied. -/
  given : m.Starts l → ∀ r, resource = some r →
    ∃ x, m.step.state.heap.resources.get? r = some x ∧
      a.content.map Subtype.val = some x.content
  /-- The block is freed with the layout that it was allocated with. -/
  freed : m.Frees l →
    m.step.state.trace = .deallocated l a.layout :: .deallocating l :: m.state.trace

/-- What was supplied for a block stays with it. -/
theorem Constructs.inherits (hk : k.Reachable) (hconstructs : k.Constructs l a)
    (h : Leads (fun _ => True) k.step m) (hb : m.state.heap.blocks.get? l = some b) :
    b.layout = a.layout ∧ b.resource = a.resource k.state.heap ∧
      ∀ action, b.action = some action → action = a.action := by
  have hinherits := inherits_of_leads (hk.leads (leads_step k)) h
  rw [hconstructs.heap] at hinherits
  have hnew := a.get?_blocks_adopt k.state.heap
  rw [← hconstructs.label] at hnew
  obtain ⟨c, hc, hblock⟩ := hinherits.blocks l b (Table.lt_next_of_get? hnew) hb
  obtain rfl := Option.some.inj (hnew.symm.trans hc)
  refine ⟨hblock.layout, hblock.resource, fun action haction => ?_⟩
  rcases hblock.action with heq | hnone
  · exact Option.some.inj (haction.symm.trans heq)
  · cases haction.symm.trans hnone

theorem Constructs.faithful (hk : k.Reachable) (hconstructs : k.Constructs l a)
    (h : Leads (fun _ => True) k.step m) : m.Faithful l a (a.resource k.state.heap) := by
  have hm : m.Reachable := (hk.leads (leads_step k)).leads h
  obtain ⟨hL, hobeys⟩ := ReachableBy.sound_obeys hm
  refine ⟨fun hs => ?_, fun hs r hr => ?_, fun hf => ?_⟩
  · obtain ⟨b, action, rest, hb, -, haction, hstep⟩ := hs.exists_run hL hobeys
    obtain ⟨-, hresource, hsame⟩ := hconstructs.inherits hk h hb
    obtain rfl := hsame action haction
    refine ⟨rest, ?_, ?_⟩
    · rw [hstep, hresource]
      exact List.append_assoc ..
    · rw [hstep, hresource]
      cases a.action <;> rfl
  · obtain ⟨b, action, rest, hreleases⟩ := hs.releases hL hobeys
    obtain ⟨-, hresource, -⟩ := hconstructs.inherits hk h hreleases.block
    obtain ⟨⟨x, hx⟩, -⟩ := hL.stays l b r hreleases.block (by simp [hreleases.pending])
      (hresource.trans hr)
    refine ⟨x, ?_, ?_⟩
    · rw [hreleases.heap, Heap.resources_setBlock]
      exact hx
    · obtain ⟨y, hy, hcontent⟩ := Supply.get?_resources_adopt hr
      have hinherits := inherits_of_leads (hk.leads (leads_step k)) h
      rw [hconstructs.heap] at hinherits
      obtain ⟨z, hz, hsame⟩ := hinherits.resources r x (Table.lt_next_of_get? hy) hx
      obtain rfl := Option.some.inj (hy.symm.trans hz)
      rw [hcontent, hsame]
  · obtain ⟨b, hends⟩ := hf.ends hL hobeys
    rw [hends.trace, (hconstructs.inherits hk h hends.block).1]

/-- Every block was made by a step of the run, of what its command supplied; and whoever is the last
to go, the teardown uses just that. -/
theorem faithful_of_reachable (hm : m.Reachable) :
    (∀ l, m.state.heap.born l → ∃ (k : Machine) (a : Supply), k.Reachable ∧ k.Constructs l a ∧
      Leads (fun _ => True) k.step m) ∧
    ∀ (k : Machine) (l : Nat) (a : Supply), k.Reachable → k.Constructs l a →
      Leads (fun _ => True) k.step m → m.Faithful l a (a.resource k.state.heap) :=
  ⟨fun _ hborn => exists_constructs hm hborn,
    fun _ _ _ hk hconstructs h => hconstructs.faithful hk h⟩

/-- The record of the run is about to be made. -/
def unmade : Machine := { stack := (sharing.take 1).map .perform }

/-- The record is about to lose its last owner, which points at a part of it. -/
def lastOwner : Machine :=
  step { state := (shared.performAll [.drop "owner"]).state, stack := [.perform (.drop "part")] }

/-- The block of the record is about to lose its last observer, which was cloned amid the release
action. -/
def lastObserver : Machine :=
  step { state := (amidRelease.steps 20).state, stack := [.perform (.drop "other")] }

theorem reachable_unmade : unmade.Reachable := by
  have hmove : Move (fun _ => True) {} unmade :=
    .command _ (Command.all_of_forall (fun _ => trivial) _) rfl rfl
  exact .single hmove

theorem leads_lastOwner : Leads (fun _ => True) unmade.step lastOwner := by
  have hall : ∀ script, Command.AllIn (fun _ => True) script :=
    Command.allIn_of_forall fun _ => trivial
  have hmade : Leads (fun _ => True) unmade.step (performAll {} (sharing.take 1)) :=
    leads_steps unmade.step 40
  have hshared : Leads (fun _ => True) unmade.step shared :=
    hmade.trans (leads_performAll_take (hall sharing) 1)
  have hdropped := hshared.trans (leads_performAll (hall [.drop "owner"]))
  exact (hdropped.tail (.command (.drop "part") trivial rfl rfl)).trans (leads_step _)

theorem amidRelease_eq_steps : amidRelease = lastOwner.steps 2 := by
  rw [amidRelease, steps, if_neg (by simp [halted])]
  rfl

theorem leads_lastObserver : Leads (fun _ => True) lastOwner lastObserver := by
  have hreleasing : Leads (fun _ => True) lastOwner amidRelease :=
    amidRelease_eq_steps ▸ leads_steps lastOwner 2
  have hended : Leads (fun _ => True) lastOwner (amidRelease.steps 20) :=
    hreleasing.trans (leads_steps _ 20)
  exact (hended.tail (.command (.drop "other") trivial rfl rfl)).trans (leads_step _)

/-- The last owner of the record points at an integer, yet the record is what is released; and the
block goes with the layout that was asked for the record. -/
theorem faithful_lastOwner : ∃ a, unmade.Constructs 1 a ∧ a.ty = .record ∧
    (∃ h rest, lastOwner.stack = .drop h :: rest ∧ h.ty = .int) ∧ lastOwner.Starts 1 ∧
    lastOwner.Faithful 1 a (some 1) ∧ lastObserver.Frees 1 ∧
    lastObserver.Faithful 1 a (some 1) := by
  have hmade : ∃ a, unmade.Constructs 1 a ∧ a.ty = .record ∧
      a.resource unmade.state.heap = some 1 :=
    ⟨_, ⟨rfl, ⟨_, [], rfl, .adopt ..⟩, rfl, rfl, rfl⟩, rfl, rfl⟩
  have hstarts : lastOwner.Starts 1 := ⟨_, _, rfl, rfl, rfl, rfl⟩
  have hfrees : lastObserver.Frees 1 := ⟨_, rfl, rfl⟩
  obtain ⟨a, hconstructs, hty, hresource⟩ := hmade
  have hfaithful : ∀ m, Leads (fun _ => True) unmade.step m → m.Faithful 1 a (some 1) := by
    intro m hm
    have hreachable := (reachable_unmade.leads (leads_step unmade)).leads hm
    rw [← hresource]
    exact (faithful_of_reachable hreachable).2 unmade 1 a reachable_unmade hconstructs hm
  exact ⟨a, hconstructs, hty, ⟨_, _, rfl, rfl⟩, hstarts, hfaithful lastOwner leads_lastOwner,
    hfrees, hfaithful lastObserver (leads_lastOwner.trans leads_lastObserver)⟩

end Machine

end SharedOwnership
