import SharedOwnership.Proofs.Teardown.Chronicle

/-!
# The steps of a teardown

The release action of a block is started by the drop of its last owner and by no other step, and the
block is freed by the drop of its last observer or by the end of its release action.

## Main definitions

* `Machine.Starts` — whether a step starts the release action of a block.
* `Machine.Frees` — whether a step frees a block.
-/

namespace SharedOwnership

/-- A block that takes the place of one with the same release action, or the same of anything else,
changes nothing of that kind. -/
theorem Heap.eq_of_setBlock {α : Type} (f : Block → α) {heap : Heap} {l l' : Nat}
    {b b' c c' : Block} (hb : heap.blocks.get? l = some b) (hc : heap.blocks.get? l' = some c)
    (hc' : (heap.setBlock l b').blocks.get? l' = some c') (hf : f b' = f b) : f c' = f c := by
  rw [get?_setBlock hb] at hc'
  split at hc'
  · next heq =>
    cases hc'
    obtain rfl : b = c := Option.some.inj (hb.symm.trans (heq ▸ hc))
    exact hf
  · rw [Option.some.inj (hc.symm.trans hc')]

/-- A block that is freed changes no other block. -/
theorem Heap.eq_of_erase {heap : Heap} {l l' : Nat} {c c' : Block}
    (hc : heap.blocks.get? l' = some c) (hc' : (heap.blocks.erase l).get? l' = some c') :
    c' = c := by
  rw [Table.get?_erase] at hc'
  split at hc'
  · cases hc'
  · exact Option.some.inj (hc'.symm.trans hc)

/-- Blocks that are replaced are not freed. -/
theorem Heap.get?_setBlock_ne_none {heap : Heap} {l l' : Nat} {b b' c : Block}
    (hb : heap.blocks.get? l = some b) (hc : heap.blocks.get? l' = some c) :
    (heap.setBlock l b').blocks.get? l' ≠ none := by
  rw [get?_setBlock hb]
  split <;> simp [hc]

theorem State.trace_start (s : State) (action : ReleaseAction) (resource : Option Nat) :
    (s.start action resource).1.trace = s.trace ∨
      ∃ n v, (s.start action resource).1.trace = .entered n v :: s.trace := by
  cases action with
  | discard => exact .inl rfl
  | scripted => exact .inr ⟨_, _, rfl⟩

namespace Machine

/-- The next step starts the release action of the block labelled `l`. -/
def Starts (m : Machine) (l : Nat) : Prop :=
  ∃ b b', m.state.heap.blocks.get? l = some b ∧ b.action.isSome ∧
    m.step.state.heap.blocks.get? l = some b' ∧ b'.action = none

/-- The next step frees the block labelled `l`. -/
def Frees (m : Machine) (l : Nat) : Prop :=
  ∃ b, m.state.heap.blocks.get? l = some b ∧ m.step.state.heap.blocks.get? l = none

variable {p : Command → Prop} {m : Machine} {l : Nat} {h : Handle} {rest : List Task}

/-- The kinds of steps. -/
inductive StepKind (p : Command → Prop) (m : Machine) : Prop
  /-- Every block stays in its phase. -/
  | entries (hentries : Ledger.Entries p m.ledger m.step.ledger)
  /-- A handle is dropped; while a panic unwinds, the panic waits below. -/
  | drop (h : Handle) (rest rest' : List Task) (hstack : m.stack = .drop h :: rest)
      (hrest : rest' = rest ∨ ∃ e, rest' = .resume e :: rest)
      (hstep : m.step = run (m.state.giveBack h) rest')
      (hgives : m.state.GivesBack h (m.state.giveBack h))
  /-- A release action has returned. -/
  | finish (l : Nat) (rest : List Task) (hstack : m.stack = .finish l :: rest)
      (hcontrol : m.control = .running)
      (hstep : m.step = { state := m.state.giveBackWeak l, stack := rest })
      (hends : m.state.Ends l (m.state.giveBackWeak l))
  /-- A release action is unwound. -/
  | abandon (l : Nat) (rest : List Task) (b : Block) (e : Panic)
      (hstack : m.stack = .finish l :: rest) (hcontrol : m.control = .unwinding e)
      (hb : m.state.heap.blocks.get? l = some b)
      (hstep : m.step = { state := m.state.abandon l, control := .unwinding e, stack := rest })
      (hheap : m.step.state.heap = m.state.heap.setBlock l { b with unwound := true })

theorem stepKind (hL : m.ledger.Sound) (hm : m.Obeys p) : m.StepKind p := by
  obtain ⟨s, control, stack⟩ := m
  rcases stack with _ | ⟨t, rest⟩
  · exact .entries (entries_step hL hm.safe hm.top (by simp) (by simp))
  by_cases hd : ∃ h, t = .drop h
  · obtain ⟨h, rfl⟩ := hd
    cases control with
    | running => exact .drop h rest rest rfl (.inl rfl) rfl (State.givesBack hL)
    | unwinding e =>
      exact .drop h rest (.resume e :: rest) rfl (.inr ⟨e, rfl⟩) rfl (State.givesBack hL)
    | aborted layout => exact .entries .refl
  by_cases hf : ∃ l, t = .finish l
  · obtain ⟨l, rfl⟩ := hf
    obtain ⟨b, hb⟩ := hL.finishing l (State.mem_finishing_finish s l rest)
    cases control with
    | running => exact .finish l rest rfl rfl rfl (State.ends hL)
    | unwinding e => exact .abandon l rest b e rfl rfl hb rfl (Heap.modifyBlock_eq_setBlock _ hb)
    | aborted layout => exact .entries .refl
  · refine .entries (entries_step hL hm.safe hm.top ?_ ?_)
    · rintro h rest' ⟨⟩
      exact hd ⟨h, rfl⟩
    · rintro l rest' ⟨⟩
      exact hf ⟨l, rfl⟩

/-- Only a panic that leaves a release action marks the block. -/
theorem unwound_step {b b' : Block} (hL : m.ledger.Sound) (hm : m.Obeys p)
    (hb : m.state.heap.blocks.get? l = some b) (hb' : m.step.state.heap.blocks.get? l = some b') :
    b'.unwound = b.unwound ∨
      (∃ e, m.control = .unwinding e) ∧ ∃ rest, m.stack = .finish l :: rest := by
  cases stepKind hL hm with
  | entries hentries =>
    obtain ⟨c, hc, halike⟩ := hentries.keeps.stays l b hb
    obtain rfl : b' = c := Option.some.inj (hb'.symm.trans hc)
    exact .inl halike.unwound
  | drop h rest rest' hstack hrest hstep hgives =>
    refine .inl ?_
    generalize m.state.giveBack h = next at hstep hgives
    rw [hstep] at hb'
    cases hgives with
    | empty hl => rw [Option.some.inj (hb'.symm.trans hb)]
    | unit l' c hl hc hcount => exact Heap.eq_of_setBlock Block.unwound hc hb hb' rfl
    | release l' c action hk hl hc hcount haction =>
      simp only [run, State.heap_start] at hb'
      exact Heap.eq_of_setBlock Block.unwound hc hb hb' rfl
    | free l' c hk hl hc hcount => rw [Heap.eq_of_erase hb hb']
  | finish l' rest hstack hcontrol hstep hends =>
    refine .inl ?_
    generalize m.state.giveBackWeak l' = next at hstep hends
    rw [hstep] at hb'
    cases hends with
    | observed c hc hcount => exact Heap.eq_of_setBlock Block.unwound hc hb hb' rfl
    | free c hc hcount => rw [Heap.eq_of_erase hb hb']
  | abandon l' rest c e hstack hcontrol hc hstep hheap =>
    by_cases heq : l' = l
    · exact .inr ⟨⟨e, hcontrol⟩, rest, heq ▸ hstack⟩
    · rw [hheap, Heap.get?_setBlock hc, if_neg heq] at hb'
      exact .inl (by rw [Option.some.inj (hb'.symm.trans hb)])

/-- What the drop of the last owner does: the trace tells of it, then the release action is on the
stack, and the end of the teardown waits below it. -/
structure Releases (m : Machine) (l : Nat) (b : Block) (action : ReleaseAction) (rest : List Task) :
    Prop where
  block : m.state.heap.blocks.get? l = some b
  count : b.counts.strong = 1
  pending : b.action = some action
  heap : m.step.state.heap = m.state.heap.setBlock l { b.removeUnit .strong with action := none }
  stack : m.step.stack = action.tasks b.resource ++ .finish l :: rest
  trace : m.step.state.trace = .releasing l :: m.state.trace ∨
    ∃ n v, m.step.state.trace = .entered n v :: .releasing l :: m.state.trace

/-- A step that starts a release action is the drop of the last owner. -/
theorem Starts.exists_run (hL : m.ledger.Sound) (hm : m.Obeys p) (hs : m.Starts l) :
    ∃ b action rest, m.state.heap.blocks.get? l = some b ∧ b.counts.strong = 1 ∧
      b.action = some action ∧
      m.step = run
        (((({ m.state with
            heap := m.state.heap.setBlock l { b.removeUnit .strong with action := none } } :
            State).record (.releasing l)).start action b.resource).1,
          action.tasks b.resource ++ [.finish l]) rest := by
  obtain ⟨b, b', hb, hsome, hb', hnone⟩ := hs
  have hsame : b'.action ≠ b.action := fun heq => by simp [← heq, hnone] at hsome
  cases stepKind hL hm with
  | entries hentries =>
    obtain ⟨c, hc, halike⟩ := hentries.keeps.stays l b hb
    obtain rfl : b' = c := Option.some.inj (hb'.symm.trans hc)
    exact absurd halike.action hsame
  | drop h rest rest' hstack hrest hstep hgives =>
    generalize m.state.giveBack h = next at hstep hgives
    cases hgives with
    | empty hl =>
      rw [hstep] at hb'
      exact absurd (congrArg Block.action (Option.some.inj (hb'.symm.trans hb))) hsame
    | unit l' c hl hc hcount =>
      rw [hstep] at hb'
      exact absurd (Heap.eq_of_setBlock Block.action hc hb hb' rfl) hsame
    | release l' c action hk hl hc hcount haction =>
      have hheap : m.step.state.heap =
          m.state.heap.setBlock l' { c.removeUnit .strong with action := none } := by
        rw [hstep]
        exact State.heap_start ..
      rw [hheap, Heap.get?_setBlock hc] at hb'
      split at hb'
      · next heq =>
        subst heq
        exact ⟨c, action, rest', hc, hcount, haction, hstep⟩
      · exact absurd (congrArg Block.action (Option.some.inj (hb'.symm.trans hb))) hsame
    | free l' c hk hl hc hcount =>
      rw [hstep] at hb'
      exact absurd (congrArg Block.action (Heap.eq_of_erase hb hb')) hsame
  | finish l' rest hstack hcontrol hstep hends =>
    generalize m.state.giveBackWeak l' = next at hstep hends
    rw [hstep] at hb'
    cases hends with
    | observed c hc hcount => exact absurd (Heap.eq_of_setBlock Block.action hc hb hb' rfl) hsame
    | free c hc hcount => exact absurd (congrArg Block.action (Heap.eq_of_erase hb hb')) hsame
  | abandon l' rest c e hstack hcontrol hc hstep hheap =>
    rw [hheap] at hb'
    exact absurd (Heap.eq_of_setBlock Block.action hc hb hb' rfl) hsame

/-- The release action is started by the drop of the last owner. -/
theorem Starts.releases (hL : m.ledger.Sound) (hm : m.Obeys p) (hs : m.Starts l) :
    ∃ b action rest, m.Releases l b action rest := by
  obtain ⟨b, action, rest, hb, hcount, haction, hstep⟩ := hs.exists_run hL hm
  refine ⟨b, action, rest, hb, hcount, haction, ?_, ?_, ?_⟩
  · rw [hstep]
    exact State.heap_start ..
  · rw [hstep]
    exact List.append_assoc ..
  · rw [hstep]
    exact State.trace_start ..

/-- How a block is freed: its last weak unit goes, with its last observer or when its release action
has returned. -/
structure Ends (m : Machine) (l : Nat) (b : Block) : Prop where
  block : m.state.heap.blocks.get? l = some b
  count : b.counts.weak = 1
  heap : m.step.state.heap = { m.state.heap with blocks := m.state.heap.blocks.erase l }
  trace : m.step.state.trace = .deallocated l b.layout :: .deallocating l :: m.state.trace
  cause : (∃ h rest, m.stack = .drop h :: rest ∧ h.kind = .weak ∧ h.block = some l) ∨
    m.control = .running ∧ ∃ rest, m.stack = .finish l :: rest

/-- A block is freed when its last weak unit goes. -/
theorem Frees.ends (hL : m.ledger.Sound) (hm : m.Obeys p) (hf : m.Frees l) :
    ∃ b, m.Ends l b := by
  obtain ⟨b, hb, hnone⟩ := hf
  cases stepKind hL hm with
  | entries hentries =>
    obtain ⟨c, hc, -⟩ := hentries.keeps.stays l b hb
    cases hnone.symm.trans hc
  | drop h rest rest' hstack hrest hstep hgives =>
    generalize m.state.giveBack h = next at hstep hgives
    cases hgives with
    | empty hl =>
      rw [hstep] at hnone
      cases hnone.symm.trans hb
    | unit l' c hl hc hcount =>
      rw [hstep] at hnone
      exact absurd hnone (Heap.get?_setBlock_ne_none hc hb)
    | release l' c action hk hl hc hcount haction =>
      rw [hstep] at hnone
      simp only [run, State.heap_start] at hnone
      exact absurd hnone (Heap.get?_setBlock_ne_none hc hb)
    | free l' c hk hl hc hcount =>
      have hnone' := hnone
      rw [hstep] at hnone'
      simp only [run, Table.get?_erase] at hnone'
      split at hnone'
      · next heq =>
        subst heq
        refine ⟨c, hc, hcount, ?_, ?_, .inl ⟨h, rest, hstack, hk, hl⟩⟩
        · rw [hstep]
          rfl
        · rw [hstep]
          rfl
      · cases hnone'.symm.trans hb
  | finish l' rest hstack hcontrol hstep hends =>
    generalize m.state.giveBackWeak l' = next at hstep hends
    cases hends with
    | observed c hc hcount =>
      rw [hstep] at hnone
      exact absurd hnone (Heap.get?_setBlock_ne_none hc hb)
    | free c hc hcount =>
      have hnone' := hnone
      rw [hstep] at hnone'
      simp only [Table.get?_erase] at hnone'
      split at hnone'
      · next heq =>
        subst heq
        exact ⟨c, hc, hcount, by rw [hstep], by rw [hstep], .inr ⟨hcontrol, rest, hstack⟩⟩
      · cases hnone'.symm.trans hb
  | abandon l' rest c e hstack hcontrol hc hstep hheap =>
    rw [hheap] at hnone
    exact absurd hnone (Heap.get?_setBlock_ne_none hc hb)

end Machine

end SharedOwnership
