import SharedOwnership.Proofs.FailedAllocation
import SharedOwnership.Proofs.Overflow

/-!
# An exchange is all or nothing

A handle that is assigned, replaced or reset obtains its new share first, and only then is the old
one given back, whatever that brings about. While it does, the new share is counted already, and
however it ends, by a panic too, the slot has the new handle. If there is no new share to obtain,
because a counter overflows or there is no memory for a control block, the old handle stays and
nothing of it is given back.

## Main definitions

* `Command.Exchanges` — which handle a command puts in place of which.
* `Machine.Counted` — whether a counter includes the unit of a handle.
* `Machine.Restores` — how handles that a command works on go back into their slots.
* `Machine.Exchanging` — the course of an exchange.
* `Machine.AllOrNothing` — what becomes of a command that exchanges a handle.

## Main results

* `Machine.allOrNothing_of_reachable` — that becomes of every such command.
-/

namespace SharedOwnership

/-! ### A further unit -/

namespace Heap

/-- A further unit like that of `h`, if `h` holds one, is within the limit. -/
def HasRoom (heap : Heap) (h : Handle) : Prop :=
  ∀ l b, h.block = some l → heap.blocks.get? l = some b → b.counts.get h.kind ≤ unitLimit

/-- The heap with a further unit like that of `h`, if `h` holds one. -/
def withUnit (heap : Heap) (h : Handle) : Heap :=
  match h.block with
  | none => heap
  | some l => heap.modifyBlock l fun b => { b with counts := b.counts.modify h.kind (· + 1) }

variable {heap : Heap} {h : Handle} {l : Nat} {b : Block}

theorem withUnit_of_block (hl : h.block = some l) (hb : heap.blocks.get? l = some b) :
    heap.withUnit h =
      heap.setBlock l { b with counts := b.counts.modify h.kind (· + 1) } := by
  simp only [withUnit, hl, modifyBlock_eq_setBlock _ hb]

@[simp] theorem resources_withUnit (heap : Heap) (h : Handle) :
    (heap.withUnit h).resources = heap.resources := by
  rw [withUnit]
  split <;> rfl

end Heap

namespace Command

/-- Whether a command puts a handle in place of another one in its slot. -/
def exchanges : Command → Bool
  | .assign .. | .replace .. | .reset _ => true
  | _ => false

/-- Whether a command makes a handle share what another one shares. -/
def assigns : Command → Bool
  | .assign .. => true
  | _ => false

/-- A command puts the handle `new` in place of `old` in the slot `name`: one like that of another
slot, the owner of a new resource, or an empty one. -/
inductive Exchanges (s : State) : Command → String → Handle → Handle → Prop
  | assign {name source : String} {h g : Handle} (hpair : s.pair name source = .ok (h, g)) :
    Exchanges s (.assign name source) name h g
  | replaceNull {name : String} {h : Handle} {terms : Terms} {script : List Command}
      (hg : s.slots.get? name = some h) (hk : h.kind = .strong) :
    Exchanges s (.replace name .null terms script) name h (.adopted h.ty none s.heap)
  | replace {name : String} {h : Handle} {value : Datum} {content : Content.Of h.ty}
      {terms : Terms} {script : List Command} (hg : s.slots.get? name = some h)
      (hk : h.kind = .strong) (hvalue : value ≠ .null)
      (hcontent : value.content h.ty = .ok content) :
    Exchanges s (.replace name value terms script) name h (.adopted h.ty (some content) s.heap)
  | reset {name : String} {h : Handle} (hg : s.slots.get? name = some h) :
    Exchanges s (.reset name) name h h.emptied

variable {s : State} {c : Command} {next : State × List Task}

/-- A command that exchanges a handle is refused, or it does so. -/
theorem exists_exchanges (hc : c.exchanges) (hplan : s.plan c = .ok next) :
    ∃ name old new, c.Exchanges s name old new := by
  cases c with
  | assign name source =>
    obtain ⟨⟨h, g⟩, hpair, -⟩ := bind_eq_ok.1 hplan
    exact ⟨_, _, _, .assign hpair⟩
  | replace name value terms script =>
    simp only [State.plan, bind_eq_ok, State.handle_eq_ok, State.requireShared_eq_ok] at hplan
    obtain ⟨h, hg, -, hk, hplan⟩ := hplan
    split at hplan
    · exact ⟨_, _, _, .replaceNull hg hk⟩
    · next hvalue =>
      obtain ⟨_, hcontent, -⟩ := bind_eq_ok.1 hplan
      cases hcontent' : value.content h.ty with
      | error reason => simp [hcontent', Functor.map, Except.map] at hcontent
      | ok content => exact ⟨_, _, _, .replace hg hk hvalue hcontent'⟩
  | reset name =>
    obtain ⟨h, hg, -⟩ := bind_eq_ok.1 hplan
    exact ⟨_, _, _, .reset (State.handle_eq_ok.1 hg)⟩
  | _ => cases hc

/-- The new share is one of a block whose counter is above its limit. -/
def Overflows (c : Command) (s : State) (new : Handle) : Prop :=
  c.assigns ∧ ∃ l b, new.block = some l ∧ s.heap.blocks.get? l = some b ∧
    unitLimit < b.counts.get new.kind

theorem hasRoom_of_not_overflows {new : Handle} (hc : c.assigns) (h : ¬ c.Overflows s new) :
    s.heap.HasRoom new := by
  intro l b hl hb
  by_contra hlt
  exact h ⟨hc, l, b, hl, hb, Nat.not_le.1 hlt⟩

end Command

namespace Machine

variable {m n : Machine} {c : Command} {name : String} {old new h : Handle} {a : Answer}
  {puts before : List (String × Handle)} {pending : Pending} {above rest : List Task}

/-! ### Shares that are counted -/

/-- The counter of the block of a handle includes the unit of the handle: it is greater than the
number of all other handles that hold such units. -/
def Counted (m : Machine) (h : Handle) : Prop :=
  ∃ others, m.handles = h ::ₘ others ∧ ∀ l, h.block = some l →
    ∃ b, m.state.heap.blocks.get? l = some b ∧ holders h.kind l others < b.counts.get h.kind

theorem counted_of_mem (hm : m.Reachable) (hh : h ∈ m.handles) : m.Counted h := by
  have hL : m.ledger.Sound := ReachableBy.sound hm
  obtain ⟨others, hothers⟩ := Multiset.exists_cons_of_mem hh
  refine ⟨others, hothers, ?_⟩
  intro l hl
  obtain ⟨b, hb⟩ := hL.exists_block hh hl
  have hcounted := (hL.accounts l b hb).counted h.kind
  rw [handles_ledger, hothers, holders_cons, if_pos ⟨rfl, hl⟩] at hcounted
  exact ⟨b, hb, by omega⟩

/-- What a command is to put back is counted until then. -/
theorem counted_of_puts (hm : m.Reachable)
    (hstack : m.stack = above ++ .settle puts pending :: rest) (hput : (name, h) ∈ puts) :
    m.Counted h := by
  apply counted_of_mem hm
  have hmem : h ∈ puts.map Prod.snd := List.mem_map_of_mem hput
  have htask : h ∈ m.stack.flatMap Task.handles := by
    rw [hstack]
    exact List.mem_flatMap.2 ⟨.settle puts pending, by simp, hmem⟩
  exact Multiset.mem_add.2 (.inr htask)

/-! ### The end of a command -/

/-- The answer of a command that was to answer `a`, unless a panic has reached it. -/
def verdict (m : Machine) (a : Answer) : Answer :=
  match m.control with
  | .unwinding e => .panicked e
  | _ => a

/-- A panic that unwinds ends at the command, which answers with it. -/
theorem leads_verdict (hm : ¬ m.Aborted) (hstack : m.stack = .settle puts (.answer a) :: rest) :
    Leads (fun _ => True) m
      { state := m.state, stack := .settle puts (.answer (m.verdict a)) :: rest } := by
  obtain ⟨s, control, stack⟩ := m
  obtain rfl : stack = .settle puts (.answer a) :: rest := hstack
  cases control with
  | running => exact .refl
  | unwinding e => exact leads_step _
  | aborted layout => exact absurd ⟨layout, rfl⟩ hm

theorem verdict_eq (ha : a = .done ∨ ∃ e, a = .panicked e) :
    m.verdict a = .done ∨ ∃ e, m.verdict a = .panicked e := by
  rw [verdict]
  split
  · exact .inr ⟨_, rfl⟩
  · exact ha

/-- The slot `name` has the handle `new`. What was put there meanwhile, if anything was, is dropped
next, and then the command ends: it answers, or it tells of a panic. -/
structure Placed (m : Machine) (name : String) (new : Handle) (rest : List Task) : Prop where
  slot : m.state.slots.get? name = some new
  stack : ∃ displaced : List Handle, ∃ a, (a = .done ∨ ∃ e, a = .panicked e) ∧
    m.stack = displaced.map .drop ++ .settle [] (.answer a) :: rest

/-- The last of the handles that go back into their slots gets there, whatever the handles bring
about that are displaced before. -/
theorem exists_placed (hm : ¬ m.Aborted)
    (hstack : m.stack = .settle (before ++ [(name, new)]) (.answer a) :: rest)
    (ha : a = .done ∨ ∃ e, a = .panicked e) :
    ∃ n, Leads (fun _ => True) m n ∧ (n.Aborted ∨ n.Placed name new rest) := by
  induction before generalizing m a with
  | nil =>
    refine ⟨_, (leads_verdict hm hstack).trans (leads_step _), .inr ⟨?_, ?_⟩⟩
    · exact Slots.get?_put_self ..
    · exact ⟨(m.state.slots.get? name).toList, m.verdict a, verdict_eq ha, rfl⟩
  | cons put before ih =>
    obtain ⟨slot, h⟩ := put
    have hstart := (leads_verdict hm hstack).trans (leads_step _)
    generalize hnext : step ⟨m.state, .running, .settle ((slot, h) :: before ++ [(name, new)])
      (.answer (m.verdict a)) :: rest⟩ = next at hstart
    -- the handle that is displaced is dropped, and then the others go back
    have hstack' : next.stack = (m.state.slots.get? slot).toList.map .drop ++
        .settle (before ++ [(name, new)]) (.answer (m.verdict a)) :: rest := by
      rw [← hnext]
      rfl
    obtain ⟨n, hn⟩ := exists_worksOff hstack'
    by_cases haborted : n.Aborted
    · exact ⟨n, hstart.trans hn.leads, .inl haborted⟩
    · obtain ⟨n', hn', hplaced⟩ := ih haborted (hn.stack_eq haborted) (verdict_eq ha)
      exact ⟨n', hstart.trans (hn.leads.trans hn'), hplaced⟩

/-- A command is about to end, and handles go back into their slots, `new` into the slot `name`. -/
structure Restores (m : Machine) (name : String) (new : Handle) (puts : List (String × Handle))
    (rest : List Task) : Prop where
  settles : m.stack = .settle puts (.answer .done) :: rest
  placed : ∃ n, Leads (fun _ => True) m n ∧ (n.Aborted ∨ n.Placed name new rest)
  /-- If the slots were left alone meanwhile, they get their handles, and that is all. -/
  alone : (∀ put ∈ puts, m.state.slots.get? put.1 = none) →
    ∃ slots : Slots, slots.get? name = some new ∧
      slots = puts.foldl (fun slots put => slots.put put.1 put.2) m.state.slots ∧
      Leads (fun _ => True) m
        { state := { m.state with slots, answer := m.verdict .done }, stack := rest }

theorem restores (hm : ¬ m.Aborted) (hputs : puts = before ++ [(name, new)])
    (hnodup : (puts.map Prod.fst).Nodup) (hstack : m.stack = .settle puts (.answer .done) :: rest) :
    m.Restores name new puts rest := by
  refine ⟨hstack, exists_placed hm (hputs ▸ hstack) (.inl rfl), ?_⟩
  intro hvacant
  refine ⟨_, ?_, rfl, ?_⟩
  · rw [hputs, List.foldl_append]
    exact Slots.get?_put_self ..
  · rw [← steps_settle m.state (m.verdict .done) rest hnodup hvacant]
    exact (leads_verdict hm hstack).trans (leads_steps ..)

/-! ### The course of an exchange -/

/-- The new handle is there, and then the old one is given back; in the end the slot `name` has the
new one. -/
structure Exchanging (m : Machine) (name : String) (old new : Handle)
    (puts : List (String × Handle)) (rest : List Task) : Prop where
  /-- One handle has come, and none is gone yet. -/
  handles : m.step.handles = new ::ₘ m.handles
  /-- The old handle is dropped next; the new one waits below whatever that brings about. -/
  stack : m.step.stack = .drop old :: .settle puts (.answer .done) :: rest
  mem_puts : (name, new) ∈ puts
  /-- All the while the new share is counted. -/
  counted : ∀ n above, Leads (fun _ => True) m.step n →
    n.stack = above ++ .settle puts (.answer .done) :: rest → n.Counted new
  /-- All that is worked off, or the run is aborted. -/
  ends : ∃ n, WorksOff (.settle puts (.answer .done) :: rest) m.step n ∧
    (n.Aborted ∨ n.Restores name new puts rest)

/-- Whatever the drop of the old handle brings about, the new one is counted until it is in its
slot, and it gets there. -/
theorem exchanging (before : List (String × Handle)) (hm : m.Reachable)
    (hputs : puts = before ++ [(name, new)])
    (hnodup : (puts.map Prod.fst).Nodup) (hhandles : m.step.handles = new ::ₘ m.handles)
    (hstack : m.step.stack = .drop old :: .settle puts (.answer .done) :: rest) :
    m.Exchanging name old new puts rest := by
  have hmem : (name, new) ∈ puts := by simp [hputs]
  refine ⟨hhandles, hstack, hmem, ?_, ?_⟩
  · intro n above hn habove
    exact counted_of_puts ((hm.leads (leads_step m)).leads hn) habove hmem
  · have habove : m.step.stack = [.drop old] ++ .settle puts (.answer .done) :: rest := hstack
    obtain ⟨n, hn⟩ := exists_worksOff habove
    refine ⟨n, hn, ?_⟩
    by_cases haborted : n.Aborted
    · exact .inl haborted
    · exact .inr (restores haborted hputs hnodup (hn.stack_eq haborted))

end Machine

namespace State

variable {s : State} {name source : String} {h g : Handle} {rest : List Task}

/-- A share that the counter has room for is obtained. -/
theorem clone_of_hasRoom (hL : (s.ledger rest).Sound) (hh : h ∈ (s.ledger rest).handles)
    (hroom : s.heap.HasRoom h) : s.heap.clone h = (s.heap.withUnit h, .ok h) := by
  cases hl : h.block with
  | none =>
    rw [Heap.clone, Heap.share, Heap.withUnit, hl]
    simp only [← hl]
  | some l =>
    obtain ⟨b, hb⟩ := hL.exists_block hh hl
    have hb' : s.heap.blocks.get? l = some b := hb
    have hle := hroom l b hl hb'
    rw [Heap.clone, Heap.share_of_block hl hb', Block.addUnit_of_le hle, Block.addUnit, if_pos hle,
      Heap.withUnit_of_block hl hb']
    rfl

/-- A unit like that of a handle that is there is given back, and that is all. -/
theorem giveBack_withUnit (slots : Slots) (hL : (s.ledger rest).Sound)
    (hh : h ∈ (s.ledger rest).handles) :
    ({ s with heap := s.heap.withUnit h, slots } : State).giveBack h = ({ s with slots }, []) := by
  cases hl : h.block with
  | none => simp only [giveBack, Heap.withUnit, hl]
  | some l =>
    obtain ⟨b, hb⟩ := hL.exists_block hh hl
    have hb' : s.heap.blocks.get? l = some b := hb
    rw [Heap.withUnit_of_block hl hb']
    exact giveBack_added (s := { s with slots }) hl hb' (hL.one_le_count hh hl hb)

/-- The owner of the new resource takes the place of the old owner. -/
theorem exists_replace_eq (name : String) (content : Option (Content.Of h.ty)) {terms : Terms}
    (script : List Command) (hfails : terms.fails = false) :
    ∃ s' : State, s'.slots = s.slots ∧
      (∀ ts, (s'.ledger ts).handles = (s.ledger ts).handles) ∧
      s.replace name h content terms script = (s'.vacate name,
        [.drop h, .settle [(name, .adopted h.ty content s.heap)] (.answer .done)]) := by
  have hadopted := adoption_false s.number.1 h.ty content terms.carried
    (.scripted s.number.2 h.ty script terms.panics)
  rw [replace, hfails]
  simp only [hadopted]
  refine ⟨_, ?_, ?_, rfl⟩
  · rfl
  · intro ts
    rw [handles_ledger, handles_ledger]
    simp only [record, Heap.links_allocate, Heap.links_keep]
    rfl

end State

namespace Machine

variable {m : Machine} {c : Command} {name : String} {old new : Handle} {l : Nat} {b : Block}
  {rest : List Task}

theorem handles_of_perform (hstack : m.stack = .perform c :: rest) :
    m.handles = (m.state.ledger rest).handles := by
  rw [handles, hstack]
  rfl

/-- An owner is replaced by that of a new resource if there is memory for the control block. -/
theorem exchanging_of_begin {content : Option (Content.Of old.ty)} {terms : Terms}
    {script : List Command} (hm : m.Reachable) (hcontrol : m.control = .running)
    (hstack : m.stack = .perform c :: rest) (hg : m.state.slots.get? name = some old)
    (hbegin : m.state.begin c = m.state.replace name old content terms script)
    (hfails : terms.fails = false) :
    ∃ puts, m.Exchanging name old (.adopted old.ty content m.state.heap) puts rest := by
  obtain ⟨s', hslots, hhandles, hreplace⟩ := m.state.exists_replace_eq name content script
    hfails
  have hstep := step_perform hcontrol hstack (hbegin.trans hreplace)
  have hexchange := State.ledger_exchange (s := s') (hslots ▸ hg)
    (.adopted old.ty content m.state.heap) (.answer .done) rest
  refine ⟨_, exchanging [] hm rfl ?_ ?_ ?_⟩
  · simp
  · rw [hstep, handles_of_perform hstack, ← hhandles]
    exact congrArg Ledger.handles hexchange
  · rw [hstep]
    rfl

/-- A command that has a share to exchange a handle for does so. -/
theorem exchanging_of_exchanges (hm : m.Reachable) (hcontrol : m.control = .running)
    (hstack : m.stack = .perform c :: rest) (hc : c.Exchanges m.state name old new)
    (hspared : c.failsToAllocate = false) (hfits : ¬ c.Overflows m.state new) :
    ∃ puts, m.Exchanging name old new puts rest := by
  have hL : (m.state.ledger (.perform c :: rest)).Sound := hstack ▸ ReachableBy.sound hm
  cases hc with
  | @assign name source _ _ hpair =>
    obtain ⟨hne, hg, hg'⟩ := State.pair_eq_ok hpair
    have hclone := State.clone_of_hasRoom hL (State.mem_handles_ledger hg' _)
      (Command.hasRoom_of_not_overflows rfl hfits)
    have hbegin := State.begin_assign hpair
    simp only [hclone] at hbegin
    have hstep := step_perform hcontrol hstack hbegin
    have hassign := State.ledger_assign (m.state.heap.resources_withUnit new) hne hg hg' new
      (.answer .done) rest
    refine ⟨_, exchanging [(source, new)] hm rfl ?_ ?_ ?_⟩
    · simpa using hne.symm
    · rw [hstep, handles_of_perform hstack]
      exact congrArg Ledger.handles hassign
    · rw [hstep]
      rfl
  | replaceNull hg hk =>
    exact exchanging_of_begin hm hcontrol hstack hg (State.begin_replaceNull hg hk) hspared
  | replace hg hk hvalue hcontent =>
    exact exchanging_of_begin hm hcontrol hstack hg (State.begin_replace hg hk hvalue hcontent)
      hspared
  | reset hg =>
    have hstep := step_perform hcontrol hstack (State.begin_reset hg)
    have hexchange := State.ledger_exchange hg old.emptied (.answer .done) rest
    refine ⟨_, exchanging [] hm rfl ?_ ?_ ?_⟩
    · simp
    · rw [hstep, handles_of_perform hstack]
      exact congrArg Ledger.handles hexchange
    · rw [hstep]
      rfl

/-! ### Two handles of one block -/

/-- The slots of an assignment once it has ended. -/
theorem slots_assigned {slots : Slots} {source : String}
    (hsource : slots.get? source = some new) :
    (((slots.erase name).erase source).put source new).put name new = slots.put name new := by
  apply Slots.ext_get?
  intro slot
  rw [Slots.get?_put, Slots.get?_put, Slots.get?_put, Slots.get?_erase, Slots.get?_erase]
  by_cases hname : name = slot
  · rw [if_pos hname, if_pos hname]
  · simp only [if_neg hname]
    by_cases heq : source = slot
    · rw [if_pos heq, ← heq, hsource]
    · rw [if_neg heq, if_neg heq]

/-- Nothing is released and nothing is freed when the two handles share one block. -/
theorem steps_of_aliased {source : String} (hm : m.Reachable) (hcontrol : m.control = .running)
    (hstack : m.stack = .perform (.assign name source) :: rest)
    (hpair : m.state.pair name source = .ok (old, new)) (hblock : old.block = new.block)
    (hfits : ¬ (Command.assign name source).Overflows m.state new) : m.steps 5 =
      { state := { m.state with slots := m.state.slots.put name new, answer := .done },
        stack := rest } := by
  have hL : (m.state.ledger (.perform (.assign name source) :: rest)).Sound :=
    hstack ▸ ReachableBy.sound hm
  obtain ⟨hne, hg, hg'⟩ := State.pair_eq_ok hpair
  have hclone := State.clone_of_hasRoom hL (State.mem_handles_ledger hg' _)
    (Command.hasRoom_of_not_overflows rfl hfits)
  have hbegin := State.begin_assign hpair
  simp only [hclone] at hbegin
  generalize hslots : (m.state.slots.erase name).erase source = slots
  -- the old handle gives back a unit of the block whose unit the new one brings
  have hunit : m.state.heap.withUnit old = m.state.heap.withUnit new := by
    rw [Heap.withUnit, Heap.withUnit, hblock, State.pair_kind hpair]
  have hback := State.giveBack_withUnit slots hL (State.mem_handles_ledger hg _)
  rw [hunit] at hback
  -- the old handle is dropped, and the state is as it was but for the slots
  have hdropped : m.step.step = { state := { m.state with slots }, stack :=
      (.settle [(source, new), (name, new)] (.answer .done) :: rest : List Task) } := by
    rw [step_perform hcontrol hstack hbegin]
    simp only [run, List.cons_append, List.nil_append, step, advance, State.vacate, hslots]
    rw [hback]
    rfl
  have hvacant : ∀ put ∈ [(source, new), (name, new)], slots.get? put.1 = none := by
    simp [← hslots, Slots.get?_erase]
  have hsettled := steps_settle { m.state with slots } .done rest (by simpa using hne.symm) hvacant
  simp only [List.foldl_cons, List.foldl_nil, ← hslots, slots_assigned hg'] at hsettled
  rw [steps_succ, steps_succ, hdropped, ← hslots]
  exact hsettled

/-! ### The main result -/

/-- A command exchanges the handle `old` in the slot `name` for `new`, or leaves it alone. -/
structure AllOrNothing (m : Machine) (c : Command) (name : String) (old new : Handle)
    (rest : List Task) : Prop where
  all : c.failsToAllocate = false → ¬ c.Overflows m.state new →
    ∃ puts, m.Exchanging name old new puts rest
  /-- If the two handles share one block, the slot has the new handle, and that is all: the heap is
  as it was, and no event is told. -/
  aliased : c.assigns → old.block = new.block → ¬ c.Overflows m.state new → m.steps 5 =
      { state := { m.state with slots := m.state.slots.put name new, answer := .done },
        stack := rest }
  /-- If the counter of the new share is above its limit, it is raised, and that is all. -/
  overflow : ∀ l b, c.assigns → new.block = some l → m.state.heap.blocks.get? l = some b →
    unitLimit < b.counts.get new.kind → m.steps 2 =
      { state := { m.state with
          heap := m.state.heap.setBlock l (b.overflowed new.kind),
          answer := .panicked new.kind.overflow },
        stack := rest }
  /-- If there is no memory for a new share, no handle is dropped. The old one waits below the
  release action of the new resource, and then the run is aborted, or the slot has it again. -/
  unallocated : c.failsToAllocate → ∃ layout tasks,
    m.step.stack = tasks ++ .settle [(name, old)] (.failed layout .abort) :: rest ∧
      m.step.handles = m.handles ∧
      ∃ n, WorksOff (.settle [(name, old)] (.failed layout .abort) :: rest) m.step n ∧
        (n.Aborted ∨ n.Outcome layout [(name, old)] rest .abort)

theorem overflow_of_exchanges (hcontrol : m.control = .running)
    (hstack : m.stack = .perform c :: rest) (hc : c.Exchanges m.state name old new)
    (hassigns : c.assigns) (hl : new.block = some l) (hb : m.state.heap.blocks.get? l = some b)
    (hlt : unitLimit < b.counts.get new.kind) : m.steps 2 =
      { state := { m.state with
          heap := m.state.heap.setBlock l (b.overflowed new.kind),
          answer := .panicked new.kind.overflow },
        stack := rest } := by
  cases hc with
  | @assign _ source _ _ hpair =>
    have hmade := Task.make_of_not_locks (t := .perform (.assign name source)) rfl hl hb hlt
    have hstep := step_of_panic hcontrol hstack (.assign hpair) hmade
    rw [steps_succ, steps_succ, hstep]
    rfl
  | replaceNull | replace | reset => cases hassigns

theorem unallocated_of_exchanges {next : State × List Task} (hm : m.Reachable)
    (hcontrol : m.control = .running) (hstack : m.stack = .perform c :: rest)
    (hplan : m.state.plan c = .ok next) (hc : c.Exchanges m.state name old new)
    (hfails : c.failsToAllocate) : ∃ layout tasks,
      m.step.stack = tasks ++ .settle [(name, old)] (.failed layout .abort) :: rest ∧
        m.step.handles = m.handles ∧
        ∃ n, WorksOff (.settle [(name, old)] (.failed layout .abort) :: rest) m.step n ∧
          (n.Aborted ∨ n.Outcome layout [(name, old)] rest .abort) := by
  obtain ⟨a, onFailure, puts, hfail, hclean⟩ :=
    failsCleanly_of_reachable hm hcontrol hstack hfails hplan
  obtain ⟨rfl, rfl⟩ : onFailure = .abort ∧ puts = [(name, old)] := by
    cases hc with
    | assign | reset => cases hfails
    | replaceNull hg | replace hg => exact hfail.of_replace hg
  obtain ⟨k, hn, -, hend⟩ := hclean.works
  refine ⟨a.layout, a.action.tasks (a.resource m.state.heap), ?_, hclean.handles, _, hn, ?_⟩
  · rw [hclean.entered]
    rfl
  · rcases hend with haborted | ⟨-, houtcome, -⟩
    · exact .inl haborted
    · exact .inr houtcome

/-- Whatever handle a command exchanges, and for whatever other one, the exchange is all or
nothing. -/
theorem allOrNothing_of_reachable {next : State × List Task} (hm : m.Reachable)
    (hcontrol : m.control = .running) (hstack : m.stack = .perform c :: rest)
    (hc : c.exchanges) (hplan : m.state.plan c = .ok next) :
    ∃ name old new, c.Exchanges m.state name old new ∧ m.AllOrNothing c name old new rest := by
  obtain ⟨name, old, new, hexchanges⟩ := Command.exists_exchanges hc hplan
  refine ⟨name, old, new, hexchanges, ?_, ?_, ?_, ?_⟩
  · exact exchanging_of_exchanges hm hcontrol hstack hexchanges
  · intro hassigns hblock hfits
    cases hexchanges with
    | assign hpair => exact steps_of_aliased hm hcontrol hstack hpair hblock hfits
    | replaceNull | replace | reset => cases hassigns
  · intro l b hassigns hl hb hlt
    exact overflow_of_exchanges hcontrol hstack hexchanges hassigns hl hb hlt
  · exact unallocated_of_exchanges hm hcontrol hstack hplan hexchanges

/-- The only owner of a resource is to be assigned another owner. The release action of the resource
puts a further owner into the slot meanwhile, and panics. -/
def reassigned : Machine where
  state := (performAll {} [
    .adopt "self" .int (some ⟨.int 10, rfl⟩) .abort ⟨.none, true, false⟩
      [.create "self" .int ⟨.int 20, rfl⟩ .abort false],
    .create "source" .int ⟨.int 30, rfl⟩ .abort false]).state
  stack := [.perform (.assign "self" "source")]

/-- The panic is the answer, and the slot has the owner that was assigned, which is counted. -/
theorem allOrNothing_reassigned : reassigned.Reachable ∧
    (∃ name old new, (Command.assign "self" "source").Exchanges reassigned.state name old new ∧
      reassigned.AllOrNothing (.assign "self" "source") name old new []) ∧
    reassigned.finish.AtRest ∧ reassigned.finish.state.answer = .panicked .release ∧
    reassigned.finish.state.slots.get? "self" = reassigned.state.slots.get? "source" ∧
    reassigned.finish.state.heap.counters = [(1, ⟨0, 1⟩), (2, ⟨2, 1⟩)] := by
  have hall : ∀ script, Command.AllIn (fun _ => True) script :=
    Command.allIn_of_forall fun _ => trivial
  have hreachable : reassigned.Reachable := (reachableBy_performAll .refl (hall _)).tail
    (.command _ (Command.all_of_forall (fun _ => trivial) _) rfl rfl)
  exact ⟨hreachable, allOrNothing_of_reachable hreachable rfl rfl rfl rfl, ⟨rfl, rfl⟩, rfl, rfl,
    rfl⟩

end Machine

end SharedOwnership
