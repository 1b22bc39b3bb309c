import SharedOwnership.Proofs.Effect
import SharedOwnership.Proofs.Exchange

/-!
# Every handle has one origin

A handle descends from a construction if the step of the construction made it, or if it was made of
a handle that descends from there: as its clone, as an observer, as the owner that a lock gave, or
by a projection. To move a handle to another slot, into a resource or out of it, is to leave it what
it is. Two handles share one block just if they descend from one construction. What they point at
does not matter; nor does it matter that the memory of a block that was freed may be used again.

## Main definitions

* `Task.Makes` — whether a task makes one handle of another one.
* `Machine.Stems` — where a handle comes from that is there after a step.
* `Run` — a run from its beginning.
* `Run.Descends` — whether a handle descends from a construction of a run.
* `Run.SameOrigin` — whether two handles descend from one construction.
* `Run.Provenance` — what it takes to have one owner.

## Main results

* `Machine.stems_step` — where the handles come from that a step leaves.
* `Run.exists_descends` — every handle that holds a unit descends from a construction.
* `Run.provenance_of_mem` — two handles have one owner just if they have one origin.
-/

namespace SharedOwnership

/-- The task `t` makes the handle `g` of the handle `h` in the state `s`. -/
inductive Task.Makes (s : State) : Task → Handle → Handle → Prop
  /-- A clone, an observer of an owner, or the owner that an observer finds. -/
  | further {t : Task} {k : Kind} {h g : Handle} {heap : Heap} (hasks : t.Asks s k h)
      (hmade : t.make s.heap h k = (heap, .ok g)) (hfinds : t.locks → 0 < s.heap.useCount h) :
    Makes s t h g
  /-- A projected clone. -/
  | projectClone {name target : String} {f : Projection} {ty : Ty} {h copy : Handle} {heap : Heap}
      {pointer : Option Pointer} (hg : s.slots.get? name = some h)
      (hv : s.slots.get? target = none) (hty : f.target h.kind h.ty = some ty)
      (hmade : s.heap.clone h = (heap, .ok copy)) (hpointer : heap.pointed copy f = .ok pointer) :
    Makes s (.perform (.projectClone name target (some f))) h { copy with ty, pointer }
  /-- A handle that is projected. -/
  | project {name target : String} {f : Projection} {ty : Ty} {h : Handle}
      {pointer : Option Pointer} (hg : s.slots.get? name = some h)
      (hv : name ≠ target → s.slots.get? target = none) (hty : f.target h.kind h.ty = some ty)
      (hpointer : s.heap.pointed h f = .ok pointer) :
    Makes s (.perform (.project name target (some f))) h { h with ty, pointer }

theorem Heap.resources_of_clone {heap heap' : Heap} {h : Handle} {made : Except Panic Handle}
    (hmade : heap.clone h = (heap', made)) : heap'.resources = heap.resources := by
  have hclone := heap.resources_clone h
  rwa [hmade] at hclone

namespace Task

variable {s : State} {t : Task} {k : Kind} {h g : Handle} {heap : Heap}

/-- An owner that a lock has found is one of the block that was observed. -/
theorem block_lock_of_useCount (hmade : s.heap.lock h = (heap, .ok g))
    (hfinds : 0 < s.heap.useCount h) : g.block = h.block := by
  cases hl : h.block with
  | none => simp [Heap.useCount, hl] at hfinds
  | some l =>
    simp only [Heap.useCount, hl] at hfinds
    simp only [Heap.lock, hl] at hmade
    split at hmade
    · next hb => simp [Heap.count, hb] at hfinds
    · next b hb =>
      rw [Heap.count_of_get? .strong hb] at hfinds
      split at hmade
      · next hnone => exact absurd (Block.promote_eq_none.1 hnone) hfinds.ne'
      · cases hmade
        rfl
      · cases hmade

/-- Without an owner a lock gives an empty handle. -/
theorem block_lock_of_useCount_eq_zero (hmade : s.heap.lock h = (heap, .ok g))
    (hzero : s.heap.useCount h = 0) : g.block = none := by
  cases hl : h.block with
  | none =>
    simp only [Heap.lock, hl] at hmade
    cases hmade
    rfl
  | some l =>
    have hcount : s.heap.count .strong l = 0 := by simpa only [Heap.useCount, hl] using hzero
    rw [Heap.lock_of_count_eq_zero hl hcount] at hmade
    cases hmade
    rfl

theorem block_share (hmade : s.heap.share h k = (heap, .ok g)) : g.block = h.block := by
  rw [Heap.share_eq_ok (congrArg Prod.snd hmade)]

/-- Whatever makes a handle of another one, the two share one block. -/
theorem Makes.block_eq (h' : t.Makes s h g) : g.block = h.block := by
  cases h' with
  | further hasks hmade hfinds =>
    rw [make] at hmade
    split at hmade
    · next hlocks => exact block_lock_of_useCount hmade (hfinds hlocks)
    · exact block_share hmade
  | @projectClone _ _ _ _ _ copy _ _ hg hv hty hmade hpointer =>
    have hcopy : copy.block = h.block := block_share hmade
    exact hcopy
  | project => rfl

theorem resources_of_make {made : Except Panic Handle} (hmade : t.make s.heap h k = (heap, made)) :
    heap.resources = s.heap.resources := by
  have hmake := t.resources_make s.heap h k
  rwa [hmade] at hmake

/-- A further handle that holds a unit was made of the handle that asked for it. -/
theorem Asks.makes (hasks : t.Asks s k h) (hmade : t.make s.heap h k = (heap, .ok g)) :
    g.block = none ∨ t.Makes s h g := by
  by_cases hfinds : t.locks → 0 < s.heap.useCount h
  · exact .inr (.further hasks hmade hfinds)
  · simp only [Classical.not_imp, Nat.not_lt, Nat.le_zero] at hfinds
    rw [make, if_pos hfinds.1] at hmade
    exact .inl (block_lock_of_useCount_eq_zero hmade hfinds.2)

end Task

namespace Machine

variable {m : Machine} {g new : Handle}

/-- Where a handle comes from that is there after the next step of the machine `m`. -/
inductive Stems (m : Machine) (g : Handle) : Prop
  /-- It was there before. -/
  | stays (hg : g ∈ m.handles)
  /-- It holds no unit. -/
  | empty (hl : g.block = none)
  /-- The step makes it of a handle that was there before. -/
  | made {t : Task} {rest : List Task} {h : Handle} (hcontrol : m.control = .running)
      (hstack : m.stack = t :: rest) (hh : h ∈ m.handles) (hmakes : t.Makes m.state h g)
  /-- The step makes a block, and the handle is its owner. -/
  | constructed {l : Nat} {a : Supply} (hconstructs : m.Constructs l a)
      (hg : g = .adopted a.ty a.content m.state.heap)

theorem stems_of_eq (h : m.step.handles = m.handles) (hg : g ∈ m.step.handles) : m.Stems g :=
  .stays (h ▸ hg)

theorem stems_of_cons (h : m.step.handles = new ::ₘ m.handles) (hnew : m.Stems new)
    (hg : g ∈ m.step.handles) : m.Stems g := by
  rw [h] at hg
  rcases Multiset.mem_cons.1 hg with rfl | hg
  · exact hnew
  · exact .stays hg

end Machine

/-- A new resource holds no handles. -/
theorem Supply.links_adopt (a : Supply) (heap : Heap) : (a.adopt heap).links = heap.links := by
  rw [adopt, Heap.links_allocate, Heap.links_keep]

/-- The owner of a new block is one more handle. -/
theorem State.Adopts.handles {s s' : State} {a : Supply} (h : s.Adopts a s')
    (hslots : s'.slots = s.slots) (ts : List Task) :
    (s'.ledger ts).handles = (s.ledger ts).handles := by
  rw [State.handles_ledger, State.handles_ledger, hslots, h.heap, a.links_adopt]

namespace Machine

variable {m : Machine} {c : Command} {rest : List Task} {s : State} {next : State × List Task}
  {g h new : Handle} {l : Nat} {a : Supply}

/-- A handle that is put into a vacant slot is one more. -/
theorem handles_put {target : String} (hv : s.slots.get? target = none) (new : Handle)
    (a : Answer) (rest : List Task) :
    (run ((s.put target new).reply a) rest).handles = new ::ₘ (s.ledger rest).handles :=
  congrArg Ledger.handles (State.ledger_put hv new rest)

/-- The step that adopts makes a block. -/
theorem constructs_of_adopts {s' : State} (hcontrol : m.control = .running)
    (hstack : m.stack = .perform c :: rest) (hsupplies : c.Supplies m.state a)
    (hadopts : m.state.Adopts a s') (hheap : m.step.state.heap = s'.heap)
    (htrace : m.step.state.trace = s'.trace) : m.Constructs m.state.heap.blocks.next a :=
  ⟨hcontrol, ⟨c, rest, hstack, hsupplies⟩, rfl, hheap.trans hadopts.heap,
    htrace.trans hadopts.trace⟩

/-- Of the handles that are there after the first step of a command, those that hold a unit were
there before, or the command made them. -/
theorem stems_of_effect (hm : m.Reachable) (hcontrol : m.control = .running)
    (hstack : m.stack = .perform c :: rest) (heffect : c.Effect m.state next)
    (hstep : m.step = run next rest) (hg : g ∈ m.step.handles) : m.Stems g := by
  have hold : (m.state.ledger rest).handles = m.handles := (handles_of_perform hstack).symm
  have hmakes : ∀ {h g}, h ∈ m.handles → (Task.perform c).Makes m.state h g → m.Stems g :=
    fun hh hmakes => .made hcontrol hstack hh hmakes
  have hslot : ∀ {name h}, m.state.slots.get? name = some h → h ∈ m.handles :=
    fun hget => mem_handles_of_slot hget
  have hL : (m.state.ledger (.perform c :: rest)).Sound := hstack ▸ ReachableBy.sound hm
  cases heffect with
  | tell a =>
    refine stems_of_eq ?_ hg
    rw [hstep, ← hold]
    rfl
  | fail hfails => exact stems_of_eq (handles_of_fails hcontrol hstack hfails) hg
  | @adopt _ a s' target hsupplies hadopts hslots hv hname =>
    have hconstructs : m.Constructs m.state.heap.blocks.next a :=
      constructs_of_adopts hcontrol hstack hsupplies hadopts (by rw [hstep]; rfl)
        (by rw [hstep]; rfl)
    refine stems_of_cons ?_ (.constructed hconstructs rfl) hg
    rw [hstep, handles_put (hslots ▸ hv), hadopts.handles hslots, hold]
  | @replace name h value terms script a s' hsupplies hadopts hslots hg' =>
    have hconstructs : m.Constructs m.state.heap.blocks.next a :=
      constructs_of_adopts hcontrol hstack hsupplies hadopts (by rw [hstep]; rfl)
        (by rw [hstep]; rfl)
    refine stems_of_cons ?_ (.constructed hconstructs rfl) hg
    have hexchange := State.ledger_exchange (s := s') (hslots ▸ hg')
      (.adopted a.ty a.content m.state.heap) (.answer .done) rest
    rw [hstep, ← hold, ← hadopts.handles hslots]
    exact congrArg Ledger.handles hexchange
  | empty target kind ty hv =>
    have hempty : m.Stems (.empty kind ty) := .empty rfl
    refine stems_of_cons ?_ hempty hg
    rw [hstep, handles_put hv, hold]
  | overflow hasks hmade =>
    refine stems_of_eq ?_ hg
    rw [hstep, ← hold]
    exact congrArg Ledger.handles
      (State.ledger_withHeap m.state (Task.resources_of_make hmade) rest)
  | @obtain _ k h new heap target hasks hmade hv hname a =>
    have hnew : m.Stems new :=
      (hasks.makes hmade).elim .empty (hmakes (mem_handles_of_asks hstack hasks))
    refine stems_of_cons ?_ hnew hg
    rw [hstep, ← hold]
    exact handles_deliver hv (Task.resources_of_make hmade) new fun _ => a
  | @assign name source h g' new heap hpair hmade =>
    obtain ⟨hne, hg₁, hg₂⟩ := State.pair_eq_ok hpair
    have hasks : (Task.perform (.assign name source)).Asks m.state g'.kind g' := .assign hpair
    have hnew : m.Stems new := (hasks.makes hmade).elim .empty (hmakes (hslot hg₂))
    refine stems_of_cons ?_ hnew hg
    have hassign := State.ledger_assign (Heap.resources_of_clone hmade) hne hg₁ hg₂ new
      (.answer .done) rest
    rw [hstep, ← hold]
    exact congrArg Ledger.handles hassign
  | @projectClone name target f ty h copy heap pointer hg' hv hty hmade hpointer =>
    have hnew : m.Stems { copy with ty, pointer } :=
      hmakes (hslot hg') (.projectClone hg' hv hty hmade hpointer)
    refine stems_of_cons ?_ hnew hg
    rw [hstep, ← hold]
    exact handles_deliver hv (Heap.resources_of_clone hmade) _ fun _ => .done
  | @unclone name target f ty h copy heap e hg' hv hty hmade hpointer =>
    have hasks : (Task.perform (.projectClone name target (some f))).Asks m.state h.kind h :=
      .projectClone hg' hv hty
    have hnew : m.Stems copy := (hasks.makes hmade).elim .empty (hmakes (hslot hg'))
    refine stems_of_cons ?_ hnew hg
    rw [hstep, ← hold]
    exact handles_drop (Heap.resources_of_clone hmade) copy
      (.resume e :: .settle [] (.answer .done) :: rest)
  | @project name target f ty h pointer hg' hv hty hpointer =>
    have hv' : (m.state.vacate name).slots.get? target = none := by
      rw [State.vacate, Slots.get?_erase]
      split
      · rfl
      · next hne => exact hv hne
    have hvacated := congrArg Ledger.handles (State.ledger_vacate hg' rest)
    rw [hstep, handles_put hv'] at hg
    rcases Multiset.mem_cons.1 hg with rfl | hg
    · exact hmakes (hslot hg') (.project hg' hv hty hpointer)
    · refine .stays (hold ▸ ?_)
      rw [hvacated]
      exact Multiset.mem_cons_of_mem hg
  | @unproject name target f h e hg' hpointer =>
    refine stems_of_eq ?_ hg
    rw [hstep, ← hold]
    exact congrArg Ledger.handles (State.ledger_vacate_task hg' (.drop h) .join rfl rfl rfl [] _)
  | @take name target h hg' hv =>
    have hempty : m.Stems h.emptied := .empty rfl
    refine stems_of_cons ?_ hempty hg
    rw [hstep, ← hold]
    exact congrArg Ledger.handles (State.ledger_take hg' hv)
  | @drop name h hg' =>
    refine stems_of_eq ?_ hg
    rw [hstep, ← hold]
    exact congrArg Ledger.handles (State.ledger_vacate_task hg' (.drop h) .join rfl rfl rfl [] _)
  | @dropOnThread name h hg' =>
    refine stems_of_eq ?_ hg
    rw [hstep, ← hold]
    exact congrArg Ledger.handles
      (State.ledger_vacate_task hg' (.spawn [h]) .join rfl rfl rfl [] _)
  | @reset name h hg' =>
    have hempty : m.Stems h.emptied := .empty rfl
    refine stems_of_cons ?_ hempty hg
    rw [hstep, ← hold]
    exact congrArg Ledger.handles (State.ledger_exchange hg' h.emptied (.answer .done) rest)
  | swap hne hg₁ hg₂ =>
    refine stems_of_eq ?_ hg
    rw [hstep, ← hold]
    exact congrArg Ledger.handles (State.ledger_swap hne hg₁ hg₂ rest)
  | link hne hg₁ hg₂ hnode =>
    obtain ⟨x, hx⟩ := State.exists_node hL hg₁ hnode
    refine stems_of_eq ?_ hg
    rw [hstep, ← hold]
    exact congrArg Ledger.handles (State.ledger_link hx hg₂)
  | unlink hg' hv hnode hx hindex =>
    refine stems_of_eq ?_ hg
    rw [hstep, ← hold]
    exact congrArg Ledger.handles (State.ledger_unlink hx hindex hv)
  | lend hc hb a =>
    refine stems_of_eq ?_ hg
    rw [hstep, ← hold]
    exact congrArg Ledger.handles (State.ledger_withHeap m.state (Heap.resources_setBlock ..) rest)
  | churn threads rounds hg' a =>
    refine stems_of_eq ?_ hg
    rw [hstep, ← hold]
    exact congrArg Ledger.handles (State.ledger_withHeap m.state (Heap.resources_churn ..) rest)
  | @raceDrop names s' hs reason htake ts hts a =>
    obtain ⟨hheap, -, hslots⟩ := State.takeAll_spec names htake
    have htasks : ts.flatMap Task.handles = hs := by
      rcases hts with rfl | rfl
      · simp [Task.handles]
      · exact Task.handles_map_drop hs
    refine stems_of_eq ?_ hg
    rw [hstep, ← hold, State.handles_ledger, hslots]
    simp only [handles, run, hheap, List.flatMap_append, htasks, List.flatMap_cons, Task.handles,
      List.map_nil, List.flatMap_nil, List.append_nil, ← Multiset.coe_add]
    abel
  | @raceAlone name observer h hg' a =>
    refine stems_of_eq ?_ hg
    rw [hstep, ← hold]
    exact congrArg Ledger.handles (State.ledger_vacate_task hg' (.drop h) .join rfl rfl rfl [] _)
  | @raceLock name observer h w hne hg' hw t ht pending =>
    refine stems_of_eq ?_ hg
    have hw' : (m.state.vacate name).slots.get? observer = some w :=
      (Slots.get?_erase_of_ne m.state.slots (Ne.symm hne)).trans hw
    have hput := State.ledger_vacate_task hw' (.settle [(observer, w)] pending) .join rfl rfl rfl
      [t] rest
    have htask : (m.state.vacate name).ledger (t :: .join :: rest) =
        m.state.ledger (.join :: .join :: rest) := by
      rcases ht with rfl | rfl
      · exact State.ledger_vacate_task hg' (.drop h) .join rfl rfl rfl [] _
      · exact State.ledger_vacate_task hg' (.spawn [h]) .join rfl rfl rfl [] _
    rw [hstep, ← hold]
    exact congrArg Ledger.handles (hput.trans htask)

/-! ### The other tasks -/

variable {t : Task}

/-- When a handle is dropped, the others stay. -/
theorem handles_giveBack (s : State) (h : Handle) (ts : List Task) :
    (run (s.giveBack h) ts).handles = (s.ledger ts).handles := by
  obtain ⟨hslots, hresources, htasks⟩ := s.giveBack_leaves h
  simp only [handles, run, State.handles_ledger, hslots, Heap.links_congr hresources,
    List.flatMap_append, htasks, List.nil_append]

/-- When a resource is dropped, the handles that it held are there until they are dropped. -/
theorem handles_destroy (s : State) (r : Nat) (ts : List Task) :
    (run (s.destroy r) ts).handles = (s.ledger ts).handles := by
  rw [State.destroy]
  split
  · rfl
  · next x hx =>
    split
    · next e he => exact congrArg Ledger.handles (State.ledger_erase (s := s.record e) hx ts)
    · exact congrArg Ledger.handles (State.ledger_erase hx ts)

/-- Handles that a task works on come on top of the others. -/
theorem subset_handles_cons (s : State) (t : Task) (ts : List Task) :
    (s.ledger ts).handles ⊆ (s.ledger (t :: ts)).handles := by
  intro g hg
  simp only [State.handles_ledger, List.flatMap_cons, Multiset.mem_add, Multiset.mem_coe,
    List.mem_append] at hg ⊢
  exact hg.imp id .inr

/-- A task that is not a command makes no handle, but for the owner that an observer gives rise to
while its last owner goes. -/
theorem subset_handles_advance (hperform : ∀ c, t ≠ .perform c)
    (hobserved : ∀ puts, t ≠ .settle puts .observed) :
    (advance s t rest).handles ⊆ (s.ledger (t :: rest)).handles := by
  have hrest := subset_handles_cons s t rest
  cases t with
  | perform c => exact absurd rfl (hperform c)
  | report | throw | resume | join => exact hrest
  | drop h =>
    simp only [advance, handles_giveBack]
    exact hrest
  | finish l =>
    obtain ⟨hslots, hresources⟩ := s.giveBackWeak_leaves l
    simp only [advance, handles, hslots, Heap.links_congr hresources]
    exact hrest
  | destroy r =>
    simp only [advance, handles_destroy]
    exact hrest
  | spawn hs => cases hs <;> exact fun _ hg => hg
  | settle puts pending =>
    cases pending with
    | answer a =>
      rw [advance, ← ledger_settle s puts a rest]
      exact fun _ hg => hg
    | failed layout onFailure => cases onFailure <;> exact fun _ hg => hg
    | observed => exact absurd rfl (hobserved puts)

/-- A panic makes no handle. -/
theorem subset_handles_unwind (s : State) (e : Panic) (t : Task) (rest : List Task) :
    (unwind s e t rest).handles ⊆ (s.ledger (t :: rest)).handles := by
  have hrest := subset_handles_cons s t rest
  cases t with
  | perform | report | finish | destroy | throw | resume | join => exact hrest
  | drop h =>
    simp only [unwind, handles_giveBack]
    exact hrest
  | spawn hs => cases hs <;> exact fun _ hg => hg
  | settle puts pending => exact fun _ hg => hg

/-- While the last owner goes, an observer may give rise to one more. -/
theorem stems_of_observed {puts : List (String × Handle)} (hcontrol : m.control = .running)
    (hstack : m.stack = .settle puts .observed :: rest) (hg : g ∈ m.step.handles) :
    m.Stems g := by
  have hold : (m.state.ledger (.settle puts .observed :: rest)).handles = m.handles := by
    rw [handles, hstack]
    rfl
  have hadvance := step_of_running hcontrol hstack
  rcases puts with _ | ⟨⟨slot, w⟩, puts⟩
  · refine stems_of_eq ?_ hg
    rw [hadvance, ← hold]
    rfl
  · let t : Task := .settle ((slot, w) :: puts) .observed
    have hasks : t.Asks m.state .strong w := .observe slot w puts
    rcases hmade : t.make m.state.heap w .strong with ⟨heap, e | owner⟩
    · refine stems_of_eq ?_ hg
      rw [hadvance, advance_of_panic hasks hmade, ← hold]
      exact congrArg Ledger.handles (State.ledger_withHeap m.state (Task.resources_of_make hmade) _)
    · have hlock : m.state.heap.lock w = (heap, .ok owner) := hmade
      have hnew : m.Stems owner := (hasks.makes hmade).elim .empty
        fun hmakes => .made hcontrol hstack (mem_handles_of_asks hstack hasks) hmakes
      refine stems_of_cons ?_ hnew hg
      rw [hadvance, ← hold]
      simp only [advance, resolve, hlock]
      exact handles_drop (Task.resources_of_make hmade) owner (.settle ((slot, w) :: puts)
        (.answer (.raced (heap.useCount w) owner.pointer.isNone)) :: rest)

/-- Wherever a handle is found after a step, it was there before, or it holds no unit, or the step
made it. -/
theorem stems_step (hm : m.Reachable) (hg : g ∈ m.step.handles) : m.Stems g := by
  by_cases hhalted : m.halted = true
  · rw [step_of_halted hhalted] at hg
    exact .stays hg
  obtain ⟨t, rest, hstack, hcontrol⟩ := exists_of_not_halted hhalted
  have hold : (m.state.ledger (t :: rest)).handles = m.handles := by
    rw [handles, hstack]
    rfl
  cases hrunning : m.control with
  | aborted layout => exact absurd hrunning (hcontrol layout)
  | unwinding e =>
    have hstep : m.step = unwind m.state e t rest := by rw [step, hrunning, hstack]
    rw [hstep] at hg
    exact .stays (hold ▸ subset_handles_unwind m.state e t rest hg)
  | running =>
    by_cases hperform : ∃ c, t = .perform c
    · obtain ⟨c, rfl⟩ := hperform
      exact stems_of_effect hm hrunning hstack (m.state.effect_begin c)
        (step_perform hrunning hstack rfl) hg
    · by_cases hobserved : ∃ puts, t = .settle puts .observed
      · obtain ⟨puts, rfl⟩ := hobserved
        exact stems_of_observed hrunning hstack hg
      · rw [step_of_running hrunning hstack] at hg
        have hsubset : (advance m.state t rest).handles ⊆ (m.state.ledger (t :: rest)).handles :=
          subset_handles_advance (fun c ht => hperform ⟨c, ht⟩)
            fun puts ht => hobserved ⟨puts, ht⟩
        exact .stays (hold ▸ hsubset hg)

end Machine

/-! ### Descent -/

/-- A run from its beginning. Every machine but the first comes from the one before it. -/
structure Run where
  machine : ℕ → Machine
  start : machine 0 = {}
  move : ∀ i, Machine.Move (fun _ => True) (machine i) (machine (i + 1))

namespace Run

variable {ρ : Run} {i i' j j' : ℕ} {g h : Handle} {l : ℕ} {a : Supply}

theorem leads (ρ : Run) (hij : i ≤ j) :
    Machine.Leads (fun _ => True) (ρ.machine i) (ρ.machine j) := by
  induction j, hij using Nat.le_induction with
  | base => exact .refl
  | succ j _ ih => exact ih.tail (ρ.move j)

theorem reachable (ρ : Run) (j : ℕ) : (ρ.machine j).Reachable := by
  have hleads := ρ.leads (Nat.zero_le j)
  rwa [ρ.start] at hleads

/-- The run that is `ρ` up to the machine `j`, and goes on with the machine `m`. -/
def branch (ρ : Run) (j : ℕ) {m : Machine}
    (hmove : Machine.Move (fun _ => True) (ρ.machine j) m) : Run where
  machine i := if i ≤ j then ρ.machine i else Machine.step^[i - (j + 1)] m
  start := ρ.start
  move i := by
    rcases Nat.lt_trichotomy i j with hlt | rfl | hgt
    · simp only [if_pos hlt.le, if_pos (Nat.succ_le_of_lt hlt)]
      exact ρ.move i
    · simp only [if_pos le_rfl, if_neg (Nat.not_succ_le_self i), Nat.sub_self]
      exact hmove
    · have hnext : i + 1 - (j + 1) = i - (j + 1) + 1 := Nat.succ_sub hgt
      simp only [if_neg (by omega : ¬ i ≤ j), if_neg (by omega : ¬ i + 1 ≤ j), hnext,
        Function.iterate_succ_apply']
      exact .step

/-- Some run passes through every reachable machine. -/
theorem exists_of_reachable {m : Machine} (hm : m.Reachable) :
    ∃ (ρ : Run) (j : ℕ), ρ.machine j = m := by
  induction hm with
  | refl => exact ⟨⟨fun _ => {}, rfl, fun _ => .step⟩, 0, rfl⟩
  | tail hn hmove ih =>
    obtain ⟨ρ, j, rfl⟩ := ih
    refine ⟨ρ.branch j hmove, j + 1, ?_⟩
    rw [branch]
    simp

/-- The handle `h` of the machine `j` descends from the construction in the step of the machine
`i`. -/
inductive Descends (ρ : Run) (i : ℕ) : ℕ → Handle → Prop
  /-- The step makes a block, and the handle is its owner. -/
  | constructed {l : ℕ} {a : Supply} (hconstructs : (ρ.machine i).Constructs l a) :
    Descends ρ i (i + 1) (.adopted a.ty a.content (ρ.machine i).state.heap)
  /-- A handle stays what it is, wherever it is put. -/
  | stays {j : ℕ} {h : Handle} (hd : Descends ρ i j h) (hh : h ∈ (ρ.machine (j + 1)).handles) :
    Descends ρ i (j + 1) h
  /-- A handle is made of one that descends from the construction. -/
  | made {j : ℕ} {t : Task} {rest : List Task} {h g : Handle} (hd : Descends ρ i j h)
      (hcontrol : (ρ.machine j).control = .running) (hstack : (ρ.machine j).stack = t :: rest)
      (hmakes : t.Makes (ρ.machine j).state h g) (hg : g ∈ (ρ.machine (j + 1)).handles) :
    Descends ρ i (j + 1) g

/-- A machine that has something left to do goes on with it. -/
theorem next_eq_step {t : Task} {rest : List Task} (hstack : (ρ.machine j).stack = t :: rest) :
    ρ.machine (j + 1) = (ρ.machine j).step := by
  have hmove := ρ.move j
  generalize ρ.machine (j + 1) = n at hmove
  cases hmove with
  | step => rfl
  | command c hc hcontrol hempty =>
    rw [hstack] at hempty
    cases hempty

theorem next_of_constructs (hconstructs : (ρ.machine i).Constructs l a) :
    ρ.machine (i + 1) = (ρ.machine i).step := by
  obtain ⟨c, rest, hstack, -⟩ := hconstructs.command
  exact next_eq_step hstack

namespace Descends

/-- What descends from a construction has the block that was made there. -/
theorem block (hd : ρ.Descends i j h) :
    h.block = some (ρ.machine i).state.heap.blocks.next := by
  induction hd with
  | constructed => rfl
  | stays _ _ ih => exact ih
  | made _ _ _ hmakes _ ih => exact hmakes.block_eq.trans ih

theorem exists_constructs (hd : ρ.Descends i j h) :
    i < j ∧ ∃ a, (ρ.machine i).Constructs (ρ.machine i).state.heap.blocks.next a := by
  induction hd with
  | constructed hconstructs =>
    refine ⟨Nat.lt_succ_self i, _, hconstructs.label ▸ hconstructs⟩
  | stays _ _ ih => exact ⟨ih.1.trans (Nat.lt_succ_self _), ih.2⟩
  | made _ _ _ _ _ ih => exact ⟨ih.1.trans (Nat.lt_succ_self _), ih.2⟩

/-- A later construction makes another block. -/
theorem next_lt (hd : ρ.Descends i j h) (hlt : i < i') :
    (ρ.machine i).state.heap.blocks.next < (ρ.machine i').state.heap.blocks.next := by
  obtain ⟨-, a, hconstructs⟩ := hd.exists_constructs
  have hnext := a.next_blocks_adopt (ρ.machine i).state.heap
  rw [← hconstructs.heap, ← next_of_constructs hconstructs] at hnext
  have hle := (Machine.inherits_of_leads (ρ.reachable (i + 1)) (ρ.leads hlt)).next_blocks
  omega

/-- Handles of one block descend from one construction. -/
theorem eq_of_block (hd : ρ.Descends i j h) (hd' : ρ.Descends i' j' g)
    (heq : h.block = g.block) : i = i' := by
  have hsame : (ρ.machine i).state.heap.blocks.next = (ρ.machine i').state.heap.blocks.next := by
    rw [hd.block, hd'.block] at heq
    exact Option.some.inj heq
  rcases Nat.lt_trichotomy i i' with hlt | heq' | hgt
  · have hlt' := hd.next_lt hlt
    omega
  · exact heq'
  · have hlt' := hd'.next_lt hgt
    omega

end Descends

/-- The next machine comes from a step, or a command is given, which works on no handles yet. -/
theorem next_cases (ρ : Run) (j : ℕ) : ρ.machine (j + 1) = (ρ.machine j).step ∨
    (ρ.machine (j + 1)).handles = (ρ.machine j).handles := by
  have hmove := ρ.move j
  generalize ρ.machine (j + 1) = n at hmove
  cases hmove with
  | step => exact .inl rfl
  | command c hc hcontrol hempty =>
    refine .inr ?_
    simp only [Machine.handles, hempty]
    rfl

/-- Every handle that holds a unit descends from a construction. -/
theorem exists_descends (hh : h ∈ (ρ.machine j).handles) (hl : h.block ≠ none) :
    ∃ i, ρ.Descends i j h := by
  induction j generalizing h with
  | zero =>
    rw [ρ.start] at hh
    exact absurd hh (Multiset.notMem_zero h)
  | succ j ih =>
    have hstays : h ∈ (ρ.machine j).handles → ∃ i, ρ.Descends i (j + 1) h := by
      intro hold
      obtain ⟨i, hd⟩ := ih hold hl
      exact ⟨i, hd.stays hh⟩
    rcases ρ.next_cases j with hstep | hsame
    · have hstem : (ρ.machine j).Stems h := Machine.stems_step (ρ.reachable j) (hstep ▸ hh)
      cases hstem with
      | stays hold => exact hstays hold
      | empty hnone => exact absurd hnone hl
      | @made t rest g hcontrol hstack hg hmakes =>
        obtain ⟨i, hd⟩ := ih hg (hmakes.block_eq ▸ hl)
        exact ⟨i, hd.made hcontrol hstack hmakes hh⟩
      | constructed hconstructs heq =>
        subst heq
        exact ⟨j, .constructed hconstructs⟩
    · exact hstays (hsame ▸ hh)

/-! ### The main result -/

/-- Two handles of the machine `j` hold no units, or both descend from one construction. -/
def SameOrigin (ρ : Run) (j : ℕ) (h g : Handle) : Prop :=
  (h.block = none ∧ g.block = none) ∨ ∃ i, ρ.Descends i j h ∧ ρ.Descends i j g

/-- What it takes for two handles of the machine `j` to have one owner. -/
structure Provenance (ρ : Run) (j : ℕ) (h g : Handle) : Prop where
  /-- A handle that holds a unit descends from just one construction, and one that holds none
  descends from none. -/
  origin : if h.block = none then ∀ i, ¬ ρ.Descends i j h else ∃! i, ρ.Descends i j h
  /-- Where the handles point does not matter. -/
  block_eq_iff : h.block = g.block ↔ ρ.SameOrigin j h g
  /-- No other block has the address of the block of a handle, though the memory of a block that
  was freed may be used again. -/
  address_eq_iff : ∀ address : ℕ → ℕ,
    (∀ l l' b b', (ρ.machine j).state.heap.blocks.get? l = some b →
      (ρ.machine j).state.heap.blocks.get? l' = some b' → address l = address l' → l = l') →
    (h.block.map address = g.block.map address ↔ ρ.SameOrigin j h g)
  /-- A handle of no resource points at nothing, as an empty one does, and yet it is not empty. -/
  null : ∀ i l a, (ρ.machine i).Constructs l a → a.content = none → ρ.Descends i j h →
    h.pointer = none ∧ h.block ≠ none
  /-- That is what a comparison of the owners answers. -/
  answers : ∀ name other, (ρ.machine j).state.slots.get? name = some h →
    (ρ.machine j).state.slots.get? other = some g → h.kind = g.kind → h.ty = g.ty →
    ∃ b : Bool, (b = true ↔ ρ.SameOrigin j h g) ∧
      (ρ.machine j).state.begin (.sameOwner name other) = (ρ.machine j).state.reply (.flag b)

theorem Descends.block_ne_none (hd : ρ.Descends i j h) : h.block ≠ none := by
  rw [hd.block]
  exact Option.some_ne_none _

/-- Handles of one block have one origin. -/
theorem block_eq_iff_sameOrigin (hh : h ∈ (ρ.machine j).handles)
    (hg : g ∈ (ρ.machine j).handles) : h.block = g.block ↔ ρ.SameOrigin j h g := by
  constructor
  · intro heq
    by_cases hnone : h.block = none
    · exact .inl ⟨hnone, heq ▸ hnone⟩
    · obtain ⟨i, hd⟩ := exists_descends hh hnone
      obtain ⟨i', hd'⟩ := exists_descends hg (heq ▸ hnone)
      obtain rfl := hd.eq_of_block hd' heq
      exact .inr ⟨i, hd, hd'⟩
  · rintro (⟨hh, hg⟩ | ⟨i, hd, hd'⟩)
    · rw [hh, hg]
    · rw [hd.block, hd'.block]

/-- Blocks that are allocated have addresses of their own, so those of handles do. -/
theorem map_address_eq_iff (hh : h ∈ (ρ.machine j).handles) (hg : g ∈ (ρ.machine j).handles)
    {address : ℕ → ℕ}
    (haddress : ∀ l l' b b', (ρ.machine j).state.heap.blocks.get? l = some b →
      (ρ.machine j).state.heap.blocks.get? l' = some b' → address l = address l' → l = l') :
    h.block.map address = g.block.map address ↔ h.block = g.block := by
  have hL : (ρ.machine j).ledger.Sound := Machine.ReachableBy.sound (ρ.reachable j)
  constructor
  · intro heq
    cases hl : h.block with
    | none =>
      rw [hl, Option.map_none, eq_comm, Option.map_eq_none_iff] at heq
      exact heq.symm
    | some l =>
      rw [hl, Option.map_some, eq_comm, Option.map_eq_some_iff] at heq
      obtain ⟨l', hl', hsame⟩ := heq
      obtain ⟨b, hb⟩ := hL.exists_block hh hl
      obtain ⟨b', hb'⟩ := hL.exists_block hg hl'
      rw [hl', haddress l' l b' b hb' hb hsame]
  · exact congrArg _

/-- A handle that descends from the construction of a block for no resource has no pointer. -/
theorem Descends.pointer_eq_none (hd : ρ.Descends i j h) (hh : h ∈ (ρ.machine j).handles)
    (hconstructs : (ρ.machine i).Constructs l a) (hnone : a.content = none) :
    h.pointer = none := by
  have hL : (ρ.machine j).ledger.Sound := Machine.ReachableBy.sound (ρ.reachable j)
  have hlater := ρ.leads (Nat.succ_le_of_lt hd.exists_constructs.1)
  rw [next_of_constructs hconstructs] at hlater
  obtain ⟨b, hb, hpointer, -⟩ := (hL.supports h hh).allocated _ hd.block
  rw [← hconstructs.label] at hb
  refine hpointer.2 ?_
  rw [(hconstructs.inherits (ρ.reachable i) hlater hb).2.1, Supply.resource, hnone, Option.map_none]

/-- Whatever handles there are in a run, two of them have one block just if they have one origin. -/
theorem provenance_of_mem (ρ : Run) (j : ℕ) (hh : h ∈ (ρ.machine j).handles)
    (hg : g ∈ (ρ.machine j).handles) : ρ.Provenance j h g := by
  have hsame := block_eq_iff_sameOrigin hh hg
  refine ⟨?_, hsame, ?_, ?_, ?_⟩
  · split
    · next hnone => exact fun i hd => hd.block_ne_none hnone
    · next hl =>
      obtain ⟨i, hd⟩ := exists_descends hh hl
      exact ⟨i, hd, fun i' hd' => hd'.eq_of_block hd rfl⟩
  · intro address haddress
    exact (map_address_eq_iff hh hg haddress).trans hsame
  · intro i l a hconstructs hnone hd
    exact ⟨hd.pointer_eq_none hh hconstructs hnone, hd.block_ne_none⟩
  · intro name other hname hother hkind hty
    exact ⟨_, decide_eq_true_iff.trans hsame, State.begin_sameOwner hname hother hkind hty⟩

/-- An integer is gone, with its block. One owner of a record points at a part of it, another one at
the constant, and so does an owner of another integer. -/
def related : Machine := Machine.performAll {} [
  .create "gone" .int ⟨.int 15, rfl⟩ .abort false, .drop "gone",
  .create "owner" .record ⟨.record { x := 9 }, rfl⟩ .abort false,
  .projectClone "owner" "part" (some .x), .projectClone "owner" "apart" (some .constant),
  .create "other" .int ⟨.int 16, rfl⟩ .abort false,
  .projectClone "other" "stranger" (some .constant)]

/-- The owners of the record have one origin, wherever they point. The stranger points where one of
them does, and has another origin. -/
theorem provenance_related : ∃ ρ j, Run.machine ρ j = related ∧ ∃ part apart stranger,
    related.state.slots.get? "part" = some part ∧ related.state.slots.get? "apart" = some apart ∧
    related.state.slots.get? "stranger" = some stranger ∧
    part.pointer ≠ apart.pointer ∧ ρ.Provenance j part apart ∧ ρ.SameOrigin j part apart ∧
    apart.pointer = stranger.pointer ∧ ρ.Provenance j apart stranger ∧
    ¬ ρ.SameOrigin j apart stranger := by
  have hall : ∀ script, Command.AllIn (fun _ => True) script :=
    Command.allIn_of_forall fun _ => trivial
  have hreachable : related.Reachable := Machine.reachableBy_performAll .refl (hall _)
  obtain ⟨ρ, j, hj⟩ := exists_of_reachable hreachable
  have hmem : ∀ {name h}, related.state.slots.get? name = some h → h ∈ (ρ.machine j).handles := by
    intro name h hg
    rw [hj]
    exact Machine.mem_handles_of_slot hg
  have hslots : ∃ part apart stranger, related.state.slots.get? "part" = some part ∧
      related.state.slots.get? "apart" = some apart ∧
      related.state.slots.get? "stranger" = some stranger ∧ part.pointer ≠ apart.pointer ∧
      part.block = apart.block ∧ apart.pointer = stranger.pointer ∧
      apart.block ≠ stranger.block :=
    ⟨_, _, _, rfl, rfl, rfl, by decide, rfl, rfl, by decide⟩
  obtain ⟨part, apart, stranger, hpart, hapart, hstranger, hne, hblock, hpointer, hother⟩ := hslots
  have hsame := ρ.provenance_of_mem j (hmem hpart) (hmem hapart)
  have hdiffer := ρ.provenance_of_mem j (hmem hapart) (hmem hstranger)
  exact ⟨ρ, j, hj, part, apart, stranger, hpart, hapart, hstranger, hne, hsame,
    hsame.block_eq_iff.1 hblock, hpointer, hdiffer, fun h => hother (hdiffer.block_eq_iff.2 h)⟩

end Run

end SharedOwnership
