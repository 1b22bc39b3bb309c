import SharedOwnership.Proofs.FailedAllocation.Commands
import SharedOwnership.Proofs.FailedAllocation.Onto
import SharedOwnership.Proofs.Ownership

/-!
# A failed allocation neither leaks nor disturbs

If there is no memory for a control block, the resource that was handed over is released at once.
The run goes on just as one that is given nothing but the release action to carry out, until that is
worked off; and then the command ends with the layout that could not be allocated, or with the panic
of the release action.

## Main definitions

* `Heap.Unclaimed` — whether a resource that was stored is that of no block.
* `Machine.releases` — a machine that is given a release action to carry out.
* `Machine.Concludes`, `Machine.Outcome` — how a command ends after its release action.
* `Machine.FailsCleanly` — what a failed allocation does, and what it leaves alone.

## Main results

* `Machine.failsCleanly_of_reachable` — every failed allocation is clean.
-/

namespace SharedOwnership

/-- The resource labelled `r` was stored, and no block is made for it. -/
structure Heap.Unclaimed (heap : Heap) (r : Nat) : Prop where
  lt : r < heap.resources.next
  blocks : ∀ l b, heap.blocks.get? l = some b → b.resource ≠ some r

namespace Machine

variable {m n k : Machine} {c : Command} {a : Supply} {onFailure : OnFailure}
  {puts : List (String × Handle)} {rest : List Task} {s : State} {answer : Answer} {r : Nat}

/-! ### The resource -/

/-- Blocks are made for new resources only. -/
theorem unclaimed_of_leads (hm : m.Reachable) (h : Leads (fun _ => True) m n)
    (hr : m.state.heap.Unclaimed r) : n.state.heap.Unclaimed r := by
  induction h with
  | refl => exact hr
  | @tail k _ hk hmove ih =>
    cases hmove with
    | command => exact ih
    | step =>
      have hreachable := hm.leads hk
      have hinherits := inherits_of_leads hreachable (leads_step k)
      refine ⟨ih.lt.trans_le hinherits.next_resources, fun l b hb hclaim => ?_⟩
      rcases Nat.lt_or_ge l k.state.heap.blocks.next with hold | hnew
      · obtain ⟨b', hb', hinherited⟩ := hinherits.blocks l b hold hb
        exact ih.blocks l b' hb' (hinherited.resource.symm.trans hclaim)
      · obtain ⟨a, hmade⟩ := constructs_of_next_lt hreachable hnew (Table.lt_next_of_get? hb)
        rw [hmade.heap, hmade.label, a.get?_blocks_adopt] at hb
        obtain rfl := Option.some.inj hb
        obtain ⟨-, -, hnext⟩ := Option.map_eq_some_iff.1 hclaim
        exact Nat.ne_of_gt ih.lt hnext

/-- A resource that is gone stays gone. -/
theorem gone_of_leads (hm : m.Reachable) (h : Leads (fun _ => True) m n)
    (hr : r < m.state.heap.resources.next) (hgone : m.state.heap.resources.get? r = none) :
    n.state.heap.resources.get? r = none := by
  cases hx : n.state.heap.resources.get? r with
  | none => rfl
  | some x =>
    obtain ⟨y, hy, -⟩ := (inherits_of_leads hm h).resources r x hr hx
    cases hgone.symm.trans hy

/-- A resource that no block is made for is gone once nothing is left to do that drops it. -/
theorem gone_of_unclaimed (hm : m.Reachable) (hr : m.state.heap.Unclaimed r)
    (hdoomed : r ∉ m.ledger.doomed) : m.state.heap.resources.get? r = none := by
  cases hx : m.state.heap.resources.get? r with
  | none => rfl
  | some x =>
    rcases kept_of_reachable hm hx with hdoomed' | ⟨l, b, hb, -, hclaim⟩
    · exact absurd hdoomed' hdoomed
    · exact absurd hclaim (hr.blocks l b hb)

/-! ### The end of a command -/

/-- A command ends with an answer in the state `s`: its handles go back into their slots, and unless
one of these was taken meanwhile, that is all. -/
structure Concludes (m : Machine) (s : State) (answer : Answer) (puts : List (String × Handle))
    (rest : List Task) : Prop where
  settles : m = { state := s, stack := .settle puts (.answer answer) :: rest }
  back : ∀ put ∈ puts, m.step.state.slots.get? put.1 = some put.2
  ends : (∀ put ∈ puts, s.slots.get? put.1 = none) → m.steps (puts.length + 1) =
    { state := { s with slots := puts.foldl (fun slots put => slots.put put.1 put.2) s.slots,
                        answer },
      stack := rest }

/-- Handles go back into vacant slots one after the other, and then the command ends. -/
theorem steps_settle (s : State) (answer : Answer) (rest : List Task)
    (hnodup : (puts.map Prod.fst).Nodup) (hvacant : ∀ put ∈ puts, s.slots.get? put.1 = none) :
    steps (puts.length + 1) { state := s, stack := .settle puts (.answer answer) :: rest } =
      { state := { s with slots := puts.foldl (fun slots put => slots.put put.1 put.2) s.slots,
                          answer },
        stack := rest } := by
  induction puts generalizing s with
  | nil => rfl
  | cons put puts ih =>
    obtain ⟨slot, h⟩ := put
    have hslot : s.slots.get? slot = none := hvacant (slot, h) List.mem_cons_self
    rw [List.map_cons, List.nodup_cons] at hnodup
    have hrest : ∀ put ∈ puts, (s.put slot h).slots.get? put.1 = none := by
      intro put hput
      have hmem : put.1 ∈ puts.map Prod.fst := List.mem_map_of_mem hput
      have hne : put.1 ≠ slot := fun heq => hnodup.1 (heq ▸ hmem)
      exact (Slots.get?_put_of_ne s.slots h hne).trans (hvacant put (List.mem_cons_of_mem _ hput))
    rw [List.length_cons, steps_succ]
    simp only [step, advance, settle, hslot]
    exact ih (s.put slot h) hnodup.2 hrest

/-- A command that works on one handle, or on none, ends with its answer. -/
theorem concludes (s : State) (answer : Answer) (rest : List Task) (hputs : puts.length ≤ 1) :
    Concludes { state := s, stack := .settle puts (.answer answer) :: rest } s answer puts
      rest := by
  have hnodup : (puts.map Prod.fst).Nodup := by
    rcases puts with _ | ⟨put, _ | ⟨put', puts⟩⟩ <;> simp at hputs ⊢
  refine ⟨rfl, fun put hput => ?_, steps_settle s answer rest hnodup⟩
  obtain rfl : puts = [put] := by
    rcases puts with _ | ⟨put', _ | ⟨put'', puts⟩⟩ <;> simp at hputs hput ⊢
    exact hput.symm
  simp [step, advance, settle, State.put]

/-- How a command ends whose allocation failed, once its release action was worked off. -/
inductive Outcome (m : Machine) (layout : Layout) (puts : List (String × Handle))
    (rest : List Task) : OnFailure → Prop
  | reported (hcontrol : m.control = .running)
      (h : m.step.Concludes { m.state with lastFailure := some layout } (.failed layout
        (m.state.lastFailure.map fun previous => decide (layout = previous))) puts rest) :
    Outcome m layout puts rest .report
  | aborted (hcontrol : m.control = .running) (h : m.step =
      { state := m.state, control := .aborted layout,
        stack := .settle puts (.answer (.aborted layout)) :: rest }) :
    Outcome m layout puts rest .abort
  | panicked (e : Panic) (onFailure : OnFailure) (hcontrol : m.control = .unwinding e)
      (h : m.step.Concludes m.state (.panicked e) puts rest) :
    Outcome m layout puts rest onFailure

theorem outcome {layout : Layout} (hm : ¬ m.Aborted)
    (hstack : m.stack = .settle puts (.failed layout onFailure) :: rest)
    (hputs : puts.length ≤ 1) : m.Outcome layout puts rest onFailure := by
  obtain ⟨s, control, stack⟩ := m
  obtain rfl : stack = .settle puts (.failed layout onFailure) :: rest := hstack
  cases control with
  | aborted layout => exact absurd ⟨layout, rfl⟩ hm
  | unwinding e => exact .panicked e onFailure rfl (concludes s _ rest hputs)
  | running =>
    cases onFailure with
    | report => exact .reported rfl (concludes _ _ rest hputs)
    | abort => exact .aborted rfl rfl

/-! ### The main result -/

/-- A machine that was handed what a command supplies and carries out the release action. -/
def releases (m : Machine) (a : Supply) (puts : List (String × Handle)) (rest : List Task) :
    Machine :=
  run ((m.state.handOver a puts).start a.action (a.resource m.state.heap))
    (.settle puts (.answer .done) :: rest)

/-- The allocation that a command of the machine `m` asks for fails, and that neither leaks nor
disturbs. -/
structure FailsCleanly (m : Machine) (c : Command) (a : Supply) (onFailure : OnFailure)
    (puts : List (String × Handle)) (rest : List Task) : Prop where
  /-- With memory for it, the command would have made a block, of the layout that is told. -/
  layout : Constructs { m with stack := .perform c.spared :: rest } m.state.heap.blocks.next a
  /-- The failure is told, and then the release action is entered; what ends the command waits below
  it. -/
  entered : m.step = run (((m.state.handOver a puts).record (.allocationFailed a.layout)).start
    a.action (a.resource m.state.heap)) (.settle puts (.failed a.layout onFailure) :: rest)
  /-- The release action is given the resource that was supplied. -/
  given : ∀ r, a.resource m.state.heap = some r → ∃ x,
    m.step.state.heap.resources.get? r = some x ∧ a.content.map Subtype.val = some x.content
  /-- It is entered this once, in whatever way the run goes on. -/
  once : ∀ i, a.action.number? = some i → ∀ n, Leads (fun _ => True) m.step n → n.Entered i
  /-- No block and no handle is made, and none is changed. -/
  blocks : m.step.state.heap.blocks = m.state.heap.blocks
  handles : m.step.handles = m.handles
  /-- Until the release action was worked off, all goes as if nothing else had been asked for; and
  then the command ends. The resource is gone for good. -/
  works : ∃ k : Machine,
    let n := k.onto (.allocationFailed a.layout :: m.state.trace)
      (.settle puts (.failed a.layout onFailure) :: rest)
    WorksOff (.settle puts (.failed a.layout onFailure) :: rest) m.step n ∧
      WorksOff (.settle puts (.answer .done) :: rest) (m.releases a puts rest)
        (k.onto m.state.trace (.settle puts (.answer .done) :: rest)) ∧
      (k.Aborted ∨ k.stack = [] ∧ n.Outcome a.layout puts rest onFailure ∧
        ∀ r, a.resource m.state.heap = some r → ∀ n', Leads (fun _ => True) n n' →
          n'.state.heap.resources.get? r = none)

/-- The step of a machine whose command fails to allocate. -/
theorem step_of_fails (hcontrol : m.control = .running) (hstack : m.stack = .perform c :: rest)
    (h : c.Fails m.state a onFailure puts) :
    m.step = run (((m.state.handOver a puts).record (.allocationFailed a.layout)).start a.action
      (a.resource m.state.heap)) (.settle puts (.failed a.layout onFailure) :: rest) := by
  obtain ⟨s, control, stack⟩ := m
  obtain rfl : control = .running := hcontrol
  obtain rfl : stack = .perform c :: rest := hstack
  have hstep : step ⟨s, .running, .perform c :: rest⟩ = run (s.begin c) rest := rfl
  rw [hstep, h.begin_eq]
  simp only [State.failedNext, run, List.append_assoc, List.singleton_append]
  rfl

theorem heap_of_fails (hcontrol : m.control = .running) (hstack : m.stack = .perform c :: rest)
    (h : c.Fails m.state a onFailure puts) :
    m.step.state.heap = (m.state.handOver a puts).heap := by
  rw [step_of_fails hcontrol hstack h, run, State.heap_start]
  rfl

theorem blocks_of_fails (hcontrol : m.control = .running) (hstack : m.stack = .perform c :: rest)
    (h : c.Fails m.state a onFailure puts) : m.step.state.heap.blocks = m.state.heap.blocks := by
  rw [heap_of_fails hcontrol hstack h]
  exact Heap.blocks_keep ..

/-- The handle that the command works on goes from its slot to the end of the command. -/
theorem handles_of_fails (hcontrol : m.control = .running) (hstack : m.stack = .perform c :: rest)
    (h : c.Fails m.state a onFailure puts) : m.step.handles = m.handles := by
  have hlinks : m.step.state.heap.links = m.state.heap.links := by
    rw [heap_of_fails hcontrol hstack h]
    exact Heap.links_keep ..
  have hslots : m.step.state.slots = (m.state.handOver a puts).slots := by
    rw [step_of_fails hcontrol hstack h, run, State.slots_start]
    rfl
  have htasks : (m.step.stack.flatMap Task.handles : List Handle) =
      puts.map Prod.snd ++ rest.flatMap Task.handles := by
    simp [step_of_fails hcontrol hstack h, run, State.start, Task.handles]
  rw [handles, handles, hlinks, hslots, htasks, ← h.handles_handOver, hstack, ← Multiset.coe_add]
  simp only [List.flatMap_cons, Task.handles, List.nil_append]
  abel

/-- With memory for it, the command would have made a block. -/
theorem constructs_spared (hcontrol : m.control = .running)
    (h : c.Fails m.state a onFailure puts) :
    Constructs { m with stack := .perform c.spared :: rest } m.state.heap.blocks.next a := by
  obtain ⟨s, control, stack⟩ := m
  obtain rfl : control = .running := hcontrol
  obtain ⟨hsupplies, hadopts⟩ := h.adopts_spared
  exact ⟨rfl, ⟨_, rest, rfl, hsupplies⟩, rfl, hadopts.heap, hadopts.trace⟩

/-- The release action was supplied just now, and it was entered at once. -/
theorem entered_of_fails (hm : m.Reachable) (hcontrol : m.control = .running)
    (hstack : m.stack = .perform c :: rest) (h : c.Fails m.state a onFailure puts) {i : Nat}
    (hi : a.action.number? = some i) : m.step.Entered i := by
  obtain rfl := h.number_eq hi
  obtain ⟨hawaits, htimes⟩ := fresh_of_reachable hm (Nat.lt_succ_self m.state.numbered)
  have hstep := step_of_fails hcontrol hstack h
  refine ⟨?_, ?_, ?_⟩
  · have hnumbered : m.step.state.numbered = (m.state.handOver a puts).numbered := by
      rw [hstep, run]
      cases a.action <;> rfl
    rw [hnumbered, State.handOver, hi, Option.getD_some]
  · rw [hstep, run, State.timesEntered_start, if_pos hi]
    have hbefore : ((m.state.handOver a puts).record (.allocationFailed a.layout)).timesEntered
        (m.state.numbered + 1) = m.state.timesEntered (m.state.numbered + 1) := by
      simp [State.timesEntered, State.record, State.handOver, Event.enters]
    rw [hbefore, htimes]
  · rintro ⟨l, b, action, hb, haction⟩
    rw [blocks_of_fails hcontrol hstack h] at hb
    exact hawaits ⟨l, b, action, hb, haction⟩

/-- The run after a failed allocation, and the run that is given the release action alone. -/
theorem exists_worksOff_of_fails (hcontrol : m.control = .running)
    (hstack : m.stack = .perform c :: rest) (h : c.Fails m.state a onFailure puts) :
    ∃ k : Machine,
      WorksOff (.settle puts (.failed a.layout onFailure) :: rest) m.step
        (k.onto (.allocationFailed a.layout :: m.state.trace)
          (.settle puts (.failed a.layout onFailure) :: rest)) ∧
      WorksOff (.settle puts (.answer .done) :: rest) (m.releases a puts rest)
        (k.onto m.state.trace (.settle puts (.answer .done) :: rest)) := by
  -- what is left when nothing was told before and nothing waits below
  let s : State := { m.state.handOver a puts with trace := [] }
  let z : Machine := { state := (s.start a.action (a.resource m.state.heap)).1
                       stack := a.action.tasks (a.resource m.state.heap) }
  have honto : ∀ past base, z.onto past base =
      run ((s.onto past).start a.action (a.resource m.state.heap)) base := by
    intro past base
    rw [State.start_onto]
    rfl
  have hbase : isUnwinding (.settle puts (.failed a.layout onFailure) :: rest) =
      isUnwinding (.settle puts (.answer .done) :: rest) := rfl
  obtain ⟨k, hk, hk'⟩ := z.exists_worksOff_onto (.allocationFailed a.layout :: m.state.trace)
    m.state.trace fun k _ => panicsAlike hbase k
  rw [honto] at hk hk'
  refine ⟨k, ?_, hk'⟩
  rw [step_of_fails hcontrol hstack h]
  exact hk

/-- Once the release action was worked off, the resource is gone. -/
theorem gone_of_fails {pending : Pending} {n' : Machine} (hm : m.Reachable)
    (hcontrol : m.control = .running) (hstack : m.stack = .perform c :: rest)
    (h : c.Fails m.state a onFailure puts) (hr : a.resource m.state.heap = some r)
    (hn : Leads (fun _ => True) m.step n) (hbase : n.stack = .settle puts pending :: rest)
    (hn' : Leads (fun _ => True) n n') : n'.state.heap.resources.get? r = none := by
  have hsound : m.ledger.Sound := hm.sound
  have hstep : m.step.Reachable := hm.leads (leads_step m)
  have hnext : r = m.state.heap.resources.next := by
    obtain ⟨-, -, hnext⟩ := Option.map_eq_some_iff.1 hr
    exact hnext.symm
  have hunclaimed : m.step.state.heap.Unclaimed r := by
    obtain ⟨x, hx, -⟩ := State.get?_resources_handOver puts hr
    rw [← heap_of_fails hcontrol hstack h] at hx
    refine ⟨Table.lt_next_of_get? hx, ?_⟩
    intro l b hb hclaim
    rw [blocks_of_fails hcontrol hstack h] at hb
    exact Nat.lt_irrefl _ (hnext ▸ hsound.stored l b r hb hclaim)
  have hdoomed : r ∉ n.ledger.doomed := by
    -- what is doomed below was doomed before the resource was stored
    intro hdoomed
    have hbelow : r ∈ m.ledger.doomed := by
      simpa [ledger, State.ledger, hstack, hbase, Task.doomed] using hdoomed
    obtain ⟨x, hx⟩ := hsound.doomed r hbelow
    exact Nat.lt_irrefl _ (hnext ▸ Table.lt_next_of_get? hx)
  have hreachable : n.Reachable := hstep.leads hn
  have hclaimed := unclaimed_of_leads hstep hn hunclaimed
  exact gone_of_leads hreachable hn' hclaimed.lt (gone_of_unclaimed hreachable hclaimed hdoomed)

/-- Whichever command it is whose allocation fails, and whatever its release action does, the
failure neither leaks nor disturbs. -/
theorem failsCleanly_of_reachable {next : State × List Task} (hm : m.Reachable)
    (hcontrol : m.control = .running) (hstack : m.stack = .perform c :: rest)
    (hc : c.failsToAllocate) (hplan : m.state.plan c = .ok next) :
    ∃ a onFailure puts, c.Fails m.state a onFailure puts ∧
      m.FailsCleanly c a onFailure puts rest := by
  obtain ⟨a, onFailure, puts, h⟩ := State.exists_fails hc hplan
  refine ⟨a, onFailure, puts, h, constructs_spared hcontrol h, step_of_fails hcontrol hstack h,
    ?_, ?_, blocks_of_fails hcontrol hstack h, handles_of_fails hcontrol hstack h, ?_⟩
  · intro r hr
    rw [heap_of_fails hcontrol hstack h]
    exact State.get?_resources_handOver puts hr
  · intro i hi n hn
    exact (entered_of_fails hm hcontrol hstack h hi).leads hn
  · obtain ⟨k, hk, hk'⟩ := exists_worksOff_of_fails hcontrol hstack h
    refine ⟨k, hk, hk', ?_⟩
    by_cases haborted : k.Aborted
    · exact .inl haborted
    · have hbase := hk.stack_eq (mt aborted_onto.1 haborted)
      refine .inr ⟨List.append_left_eq_self.1 hbase, outcome haborted hbase h.length_puts_le, ?_⟩
      intro r hr n' hn'
      exact gone_of_fails hm hcontrol hstack h hr hk.leads hbase hn'

/-- An owner is about to share another value instead. There is no memory for the control block, nor
for that of a value that the release action makes, and the release action panics in the end. -/
def unreplaced : Machine where
  state := (performAll {} [.create "owner" .int ⟨.int 1, rfl⟩ .abort false]).state
  stack := [.perform (.replace "owner" (.int 2) ⟨.none, true, true⟩
    [.create "made" .int ⟨.int 5, rfl⟩ .report true, .inspect "owner"])]

/-- The failed allocation is clean: the panic of the release action is the answer, and the owner is
the only one of the first value, as before. -/
theorem failsCleanly_unreplaced : unreplaced.Reachable ∧
    (∃ c rest a onFailure puts, unreplaced.stack = .perform c :: rest ∧
      c.Fails unreplaced.state a onFailure puts ∧
      unreplaced.FailsCleanly c a onFailure puts rest) ∧
    unreplaced.finish.AtRest ∧ unreplaced.finish.state.answer = .panicked .release ∧
    unreplaced.finish.state.slots.names = ["owner"] ∧
    unreplaced.finish.state.heap.counters = unreplaced.state.heap.counters ∧
    unreplaced.finish.state.lastFailure = some (.block 8 .none) := by
  have hbefore : (performAll {} [.create "owner" .int ⟨.int 1, rfl⟩ .abort false]).Reachable :=
    reachableBy_performAll .refl (Command.allIn_of_forall (fun _ => trivial) _)
  have hreachable : unreplaced.Reachable := hbefore.tail
    (.command _ (Command.all_of_forall (fun _ => trivial) _) rfl rfl)
  obtain ⟨a, onFailure, puts, hfails, hclean⟩ :=
    failsCleanly_of_reachable hreachable rfl rfl rfl rfl
  exact ⟨hreachable, ⟨_, [], a, onFailure, puts, rfl, hfails, hclean⟩, ⟨rfl, rfl⟩, rfl, rfl, rfl,
    rfl⟩

end Machine

end SharedOwnership
