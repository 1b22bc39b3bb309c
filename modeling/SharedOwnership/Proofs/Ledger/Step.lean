import SharedOwnership.Proofs.Ledger.Perform
import SharedOwnership.Proofs.Ledger.Phase

/-!
# Steps keep the ledger sound

A step of a machine makes entries, or it takes one block to its next phase and makes entries then.
So the ledger of every machine that some run passes through is sound.

## Main definitions

* `Ledger.Step` — what a step of a machine does to its ledger.
* `Machine.Obeys` — whether all commands that are still to come have a property.
-/

namespace SharedOwnership

namespace Ledger

/-- What a step of a machine does to its ledger. -/
inductive Step (p : Command → Prop) (L L' : Ledger) : Prop
  | entries (h : Entries p L L')
  | turn (M : Ledger) (h : Turn L M) (h' : Entries p M L')

variable {p : Command → Prop} {L L' : Ledger}

theorem Step.sound (hL : L.Sound) (h : Step p L L') : L'.Sound := by
  cases h with
  | entries h => exact h.sound hL
  | turn M h h' => exact h'.sound (h.sound hL)

theorem Step.obeys (hL : L.Obeys p) (h : Step p L L') : L'.Obeys p := by
  cases h with
  | entries h => exact h.obeys hL
  | turn M h h' => exact h'.obeys (h.obeys hL)

theorem Step.refl : Step p L L := .entries .refl

end Ledger

namespace State

variable {p : Command → Prop} {s : State} {ts : List Task} {h : Handle} {l : Nat}

/-! ### Teardown -/

theorem ledger_drop (s : State) (h : Handle) (ts : List Task) : s.ledger (.drop h :: ts) =
    { s.ledger ts with handles := h ::ₘ (s.ledger ts).handles } :=
  ledger_task s h (.drop h) .join rfl rfl rfl [] ts

theorem ledger_finish (s : State) (l : Nat) (ts : List Task) : s.ledger (.finish l :: ts) =
    { s.ledger ts with finishing := l ::ₘ (s.ledger ts).finishing } := rfl

theorem mem_handles_drop (s : State) (h : Handle) (ts : List Task) :
    h ∈ (s.ledger (.drop h :: ts)).handles := by
  simp [ledger_drop]

theorem mem_finishing_finish (s : State) (l : Nat) (ts : List Task) :
    l ∈ (s.ledger (.finish l :: ts)).finishing := by simp [ledger_finish]

/-- What becomes of a state, and what is left to do, when the unit of a handle is given back. -/
inductive GivesBack (s : State) (h : Handle) : State × List Task → Prop
  | empty (hl : h.block = none) : GivesBack s h (s, [])
  /-- Not the last unit of its kind. -/
  | unit (l : Nat) (b : Block) (hl : h.block = some l) (hb : s.heap.blocks.get? l = some b)
      (hc : 1 < b.counts.get h.kind) :
    GivesBack s h ({ s with heap := s.heap.setBlock l (b.removeUnit h.kind) }, [])
  /-- The last strong unit. -/
  | release (l : Nat) (b : Block) (action : ReleaseAction) (hk : h.kind = .strong)
      (hl : h.block = some l) (hb : s.heap.blocks.get? l = some b) (hc : b.counts.strong = 1)
      (haction : b.action = some action) :
    GivesBack s h
      (((({ s with heap := s.heap.setBlock l { b.removeUnit .strong with action := none } } :
          State).record (.releasing l)).start action b.resource).1,
        action.tasks b.resource ++ [.finish l])
  /-- The last weak unit. -/
  | free (l : Nat) (b : Block) (hk : h.kind = .weak) (hl : h.block = some l)
      (hb : s.heap.blocks.get? l = some b) (hc : b.counts.weak = 1) :
    GivesBack s h ({ s with
      heap := { s.heap with blocks := s.heap.blocks.erase l },
      trace := .deallocated l b.layout :: .deallocating l :: s.trace }, [])

theorem givesBack (hL : (s.ledger (.drop h :: ts)).Sound) : s.GivesBack h (s.giveBack h) := by
  have hh := mem_handles_drop s h ts
  cases hl : h.block with
  | none =>
    rw [giveBack, hl]
    exact .empty hl
  | some l =>
    obtain ⟨b, hb⟩ := hL.exists_block hh hl
    have hone := hL.one_le_count hh hl hb
    cases hk : h.kind with
    | strong =>
      simp only [giveBack, hl, hk]
      rw [hk] at hone
      by_cases hc : b.counts.strong = 1
      · obtain ⟨action, haction⟩ := Option.isSome_iff_exists.1 (hL.isSome_action hh hk hl hb)
        rw [giveBackStrong_last hb hc haction]
        exact .release l b action hk hl hb hc haction
      · rw [giveBackStrong_more hb hc, ← hk]
        exact .unit l b hl hb (hk ▸ lt_of_le_of_ne hone (Ne.symm hc))
    | weak =>
      simp only [giveBack, hl, hk]
      rw [hk] at hone
      by_cases hc : b.counts.weak = 1
      · rw [giveBackWeak_last hb hc]
        exact .free l b hk hl hb hc
      · rw [giveBackWeak_more hb hc, ← hk]
        exact .unit l b hl hb (hk ▸ lt_of_le_of_ne hone (Ne.symm hc))

/-- What becomes of a state when the release action of the block labelled `l` ends. -/
inductive Ends (s : State) (l : Nat) : State → Prop
  | observed (b : Block) (hb : s.heap.blocks.get? l = some b) (hc : 1 < b.counts.weak) :
    Ends s l { s with heap := s.heap.setBlock l (b.removeUnit .weak) }
  | free (b : Block) (hb : s.heap.blocks.get? l = some b) (hc : b.counts.weak = 1) :
    Ends s l { s with
      heap := { s.heap with blocks := s.heap.blocks.erase l },
      trace := .deallocated l b.layout :: .deallocating l :: s.trace }

theorem ends (hL : (s.ledger (.finish l :: ts)).Sound) : s.Ends l (s.giveBackWeak l) := by
  obtain ⟨b, hb⟩ := hL.finishing l (mem_finishing_finish s l ts)
  have hpos := (hL.accounts l b hb).weak_pos
  by_cases hc : b.counts.weak = 1
  · rw [giveBackWeak_last hb hc]
    exact .free b hb hc
  · rw [giveBackWeak_more hb hc]
    exact .observed b hb (by omega)

/-- The unit of a handle is given back. -/
theorem step_giveBack (hL : (s.ledger (.drop h :: ts)).Sound) : Ledger.Step p
    (s.ledger (.drop h :: ts)) ((s.giveBack h).1.ledger ((s.giveBack h).2 ++ ts)) := by
  have hgives := givesBack hL
  rw [ledger_drop]
  generalize s.giveBack h = next at hgives ⊢
  cases hgives with
  | empty hl => exact .entries (.single (.dropEmpty h _ rfl hl))
  | unit l b hl hb hc =>
    rw [ledger_withHeap s rfl]
    exact .entries (.single (.letGo h (s.ledger ts).handles l b rfl hl hb hc))
  | release l b action hk hl hb hc haction =>
    refine .turn _ (.release h (s.ledger ts).handles l b rfl hk hl hb hc) ?_
    refine Ledger.Entries.trans (.congr .refl ?_) (entries_start _ action b.resource _)
    rw [List.append_assoc, ledger_tasks, List.singleton_append, ledger_finish]
    refine Ledger.ext rfl ?_ rfl rfl rfl
    simp [handles_ledger, record]
  | free l b hk hl hb hc => exact .turn _ (.free h _ l b rfl hk hl hb hc) .refl

/-- The weak unit of the owners is given back when the release action ends. -/
theorem step_finish (hL : (s.ledger (.finish l :: ts)).Sound) :
    Ledger.Step p (s.ledger (.finish l :: ts)) ((s.giveBackWeak l).ledger ts) := by
  have hends := ends hL
  rw [ledger_finish]
  generalize s.giveBackWeak l = next at hends ⊢
  cases hends with
  | observed b hb hc =>
    rw [ledger_withHeap s rfl]
    exact .turn _ (.finish l _ b rfl hb hc) .refl
  | free b hb hc => exact .turn _ (.finishFree l _ b rfl hb hc) .refl

/-- The weak unit of the owners stays when the release action unwinds. -/
theorem step_abandon (hL : (s.ledger (.finish l :: ts)).Sound) :
    Ledger.Step p (s.ledger (.finish l :: ts)) ((s.abandon l).ledger ts) := by
  obtain ⟨b, hb⟩ := hL.finishing l (mem_finishing_finish s l ts)
  have hb' : s.heap.blocks.get? l = some b := hb
  rw [abandon, ledger_withHeap s rfl, ledger_finish, Heap.modifyBlock_eq_setBlock _ hb']
  exact .turn _ (.abandon l _ b rfl hb) .refl

/-- What is told when data are dropped is not about blocks. -/
theorem isTeardown_dropped {c : Content} {e : Event} (he : dropped c = some e) :
    e.isTeardown = false := by
  cases c <;> simp only [dropped, Option.some.injEq, reduceCtorEq] at he <;> subst he <;> rfl

/-- The handles that a resource held go to the tasks that drop them. -/
theorem ledger_erase {r : Nat} {x : Resource} (hx : s.heap.resources.get? r = some x)
    (ts : List Task) :
    ({ s with heap := { s.heap with resources := s.heap.resources.erase r } } : State).ledger
      (x.links.map .drop ++ ts) =
        { s.ledger ts with heap := { s.heap with resources := s.heap.resources.erase r } } := by
  refine Ledger.ext rfl ?_ ?_ ?_ rfl
  · simp only [handles_ledger, List.flatMap_append, Task.handles_map_drop, ← Multiset.coe_add,
      Heap.links_of_get? hx]
    abel
  · simp [ledger]
  · simp [ledger]

/-- A resource is dropped, and the handles that it held are dropped after it. -/
theorem entries_destroy {r : Nat} (hL : (s.ledger (.destroy r :: ts)).Sound) : Ledger.Entries p
    (s.ledger (.destroy r :: ts)) ((s.destroy r).1.ledger ((s.destroy r).2 ++ ts)) := by
  have hdoomed : (s.ledger (.destroy r :: ts)).doomed = r ::ₘ (s.ledger ts).doomed := rfl
  obtain ⟨x, hx⟩ := hL.doomed r (hdoomed ▸ Multiset.mem_cons_self ..)
  have hx' : s.heap.resources.get? r = some x := hx
  simp only [destroy, hx']
  split
  · next e he =>
    have hnote : Ledger.Entries p (s.ledger (.destroy r :: ts))
        ((s.record e).ledger (.destroy r :: ts)) := .single (.note e (isTeardown_dropped he))
    rw [ledger_erase (s := s.record e) hx']
    exact hnote.trans (.single (.destroy r _ hdoomed))
  · rw [ledger_erase hx']
    exact .single (.destroy r _ hdoomed)

/-- The tasks that a drop leaves are those of the release action that it starts. -/
theorem obeys_giveBack (hs : (s.ledger ts).Obeys p) {c : Command}
    (hc : .perform c ∈ (s.giveBack h).2) : c.All p := by
  rw [giveBack] at hc
  split at hc
  · cases hc
  · next l _ =>
    split at hc
    · rw [giveBackStrong] at hc
      split at hc
      · cases hc
      · next b hb =>
        split at hc
        · cases haction : b.action with
          | none => simp [haction] at hc
          | some action =>
            simp only [haction, List.mem_append, List.mem_singleton, reduceCtorEq, or_false] at hc
            exact obeys_tasks (hs l b action hb haction) hc
        · cases hc
    · cases hc

theorem perform_notMem_destroy {r : Nat} {c : Command} : .perform c ∉ (s.destroy r).2 := by
  rw [destroy]
  split <;> simp

/-- What a command makes of the ledger; a refusal makes nothing of it. -/
theorem books_begin {c : Command} (hL : (s.ledger ts).Sound) (hc : c.All p) :
    Books p (s.ledger ts) ts (s.begin c) := by
  rw [begin]
  split
  · next next hplan => exact books_plan hL hc hplan
  · exact books_reply _ .refl

end State

namespace Machine

variable {p : Command → Prop} {m : Machine}

/-- All commands that are still to come have the property `p`: those on the stack, and those in the
scripts of release actions that were not started. No panic keeps them, or the drop of a resource,
from being carried out. -/
structure Obeys (p : Command → Prop) (m : Machine) : Prop where
  stack : ∀ c, .perform c ∈ m.stack → c.All p
  scripts : m.ledger.Obeys p
  safe : m.PanicSafe

theorem Obeys.top (hm : m.Obeys p) :
    ∀ c rest, m.control = .running → m.stack = .perform c :: rest → c.All p :=
  fun c rest _ hstack => hm.stack c (by simp [hstack])

/-- Handles that go back to their slots stay, and so do those that they displace. -/
theorem ledger_settle (s : State) (puts : List (String × Handle)) (a : Answer) (rest : List Task) :
    (settle s puts a rest).ledger = s.ledger (.settle puts (.answer a) :: rest) := by
  rcases puts with _ | ⟨⟨slot, h⟩, puts⟩
  · rfl
  · have htask := State.ledger_task s h (.settle ((slot, h) :: puts) (.answer a))
      (.settle puts (.answer a)) rfl rfl rfl [] rest
    refine Eq.trans ?_ htask.symm
    cases hg : s.slots.get? slot with
    | none =>
      simp only [settle, ledger, hg, Option.toList_none, List.map_nil, List.nil_append]
      exact State.ledger_put hg h _
    | some g =>
      simp only [settle, ledger, hg, Option.toList_some, List.map_cons, List.map_nil,
        List.cons_append, List.nil_append, State.ledger_drop]
      exact State.ledger_displace hg h _

/-- An observer that waits to be put back may give rise to an owner, which is dropped. -/
theorem entries_resolve {s : State} {puts : List (String × Handle)} {pending : Pending}
    {rest : List Task} (hL : (s.ledger (.settle puts pending :: rest)).Sound) : Ledger.Entries p
      (s.ledger (.settle puts pending :: rest)) (resolve s puts pending rest).ledger := by
  simp only [resolve]
  split
  · exact .refl
  · exact .refl
  · exact .refl
  · split
    · exact .refl
    · next slot w puts =>
      have hw : w ∈ (s.ledger (.settle ((slot, w) :: puts) .observed :: rest)).handles := by
        simp [State.handles_ledger, Task.handles]
      have hmade : Ledger.Makes p _ (s.heap.lock w) := Ledger.makes_lock hw
      rcases hlock : s.heap.lock w with ⟨heap, e | owner⟩ <;> rw [hlock] at hmade
      · refine (hmade.error e rfl).congr ?_
        exact (State.ledger_withHeap s hmade.resources _).symm
      · refine (hmade.ok owner rfl).congr ?_
        exact (State.gain_withHeap s hmade.resources owner _).trans
          (State.ledger_drop { s with heap } owner _).symm

/-- A running machine makes entries, unless it drops a handle or ends a release action. -/
theorem entries_advance {s : State} {t : Task} {rest : List Task}
    (hL : (s.ledger (t :: rest)).Sound) (hc : ∀ c, t = .perform c → c.All p)
    (hd : ∀ h, t ≠ .drop h) (hf : ∀ l, t ≠ .finish l) :
    Ledger.Entries p (s.ledger (t :: rest)) (advance s t rest).ledger := by
  cases t with
  | perform c =>
    have hbooks : State.Books p (s.ledger rest) rest (s.begin c) := State.books_begin hL (hc c rfl)
    exact hbooks.entries
  | report => exact .single (.note _ rfl)
  | drop h => exact absurd rfl (hd h)
  | finish l => exact absurd rfl (hf l)
  | destroy r => exact State.entries_destroy hL
  | throw | resume | join => exact .refl
  | spawn hs =>
    cases hs with
    | nil => exact .refl
    | cons h hs => exact .refl
  | settle puts pending =>
    cases pending with
    | answer a => exact .congr .refl (ledger_settle s puts a rest).symm
    | failed | observed => exact entries_resolve hL

/-- An unwinding machine makes entries, unless it drops a handle or leaves a release action. -/
theorem entries_unwind {s : State} {t : Task} {rest : List Task} (e : Panic)
    (ht : t.isLost = false) (hd : ∀ h, t ≠ .drop h) (hf : ∀ l, t ≠ .finish l) :
    Ledger.Entries p (s.ledger (t :: rest)) (unwind s e t rest).ledger := by
  cases t with
  | throw | resume | join | settle => exact .refl
  | drop h => exact absurd rfl (hd h)
  | finish l => exact absurd rfl (hf l)
  | perform | report | destroy => cases ht
  | spawn hs =>
    cases hs with
    | nil => exact .refl
    | cons h hs => exact .refl

/-- A step makes entries on behalf of the command on top of the stack, unless it drops a handle, or
ends or leaves a release action. -/
theorem entries_step (hL : m.ledger.Sound) (hsafe : m.PanicSafe)
    (hc : ∀ c rest, m.control = .running → m.stack = .perform c :: rest → c.All p)
    (hd : ∀ h rest, m.stack ≠ .drop h :: rest) (hf : ∀ l rest, m.stack ≠ .finish l :: rest) :
    Ledger.Entries p m.ledger m.step.ledger := by
  obtain ⟨s, control, stack⟩ := m
  rcases stack with _ | ⟨t, rest⟩
  · cases control <;> exact .refl
  · have hd' : ∀ h, t ≠ .drop h := fun h ht => hd h rest (by rw [ht])
    have hf' : ∀ l, t ≠ .finish l := fun l ht => hf l rest (by rw [ht])
    cases control with
    | running => exact entries_advance hL (fun c ht => hc c rest rfl (by rw [ht])) hd' hf'
    | unwinding e => exact entries_unwind e (hsafe.unwinding e rfl t rfl) hd' hf'
    | aborted layout => exact .refl

/-- What a step does to the ledger on behalf of the command on top of the stack. -/
theorem step_ledger_of_top (hL : m.ledger.Sound) (hsafe : m.PanicSafe)
    (hc : ∀ c rest, m.control = .running → m.stack = .perform c :: rest → c.All p) :
    Ledger.Step p m.ledger m.step.ledger := by
  by_cases hd : ∀ h rest, m.stack ≠ .drop h :: rest
  · by_cases hf : ∀ l rest, m.stack ≠ .finish l :: rest
    · exact .entries (entries_step hL hsafe hc hd hf)
    · obtain ⟨s, control, stack⟩ := m
      push Not at hf
      obtain ⟨l, rest, rfl⟩ := hf
      cases control with
      | running => exact State.step_finish hL
      | unwinding e => exact State.step_abandon hL
      | aborted layout => exact .refl
  · obtain ⟨s, control, stack⟩ := m
    push Not at hd
    obtain ⟨h, rest, rfl⟩ := hd
    cases control with
    | running => exact State.step_giveBack hL
    | unwinding e =>
      have hL' : (s.ledger (.drop h :: .resume e :: rest)).Sound := hL
      exact State.step_giveBack hL'
    | aborted layout => exact .refl

theorem step_ledger (hL : m.ledger.Sound) (hm : m.Obeys p) :
    Ledger.Step p m.ledger m.step.ledger := step_ledger_of_top hL hm.safe hm.top

/-! ### The stack -/

/-- Tasks that put handles back carry out no command, and no panic leaves them. -/
theorem stack_settle (s : State) (puts : List (String × Handle)) (a : Answer) (rest : List Task) :
    ∃ above, (settle s puts a rest).stack = above ++ rest ∧ (∀ c, .perform c ∉ above) ∧
      Confined above := by
  rcases puts with _ | ⟨⟨slot, h⟩, puts⟩
  · exact ⟨[], rfl, by simp, .nil, by simp⟩
  · refine ⟨(s.slots.get? slot).toList.map .drop ++ [.settle puts (.answer a)], ?_, by simp, ?_⟩
    · simp [settle]
    · have hdisplaced : Contained ((s.slots.get? slot).toList.map .drop) :=
        contained_of_forall (by simp [Task.isLost, Task.raisesOther])
      exact hdisplaced.sheltered.settle puts _

theorem stack_resolve (s : State) (puts : List (String × Handle)) (pending : Pending)
    (rest : List Task) :
    ∃ above, (resolve s puts pending rest).stack = above ++ rest ∧ (∀ c, .perform c ∉ above) ∧
      Confined above := by
  have hnil : Sheltered [] := .nil
  have hsettle : ∀ a, Confined [.settle puts (.answer a)] := fun a => hnil.settle puts (.answer a)
  simp only [resolve]
  split
  · next a => exact ⟨[.settle puts (.answer a)], rfl, by simp, hsettle a⟩
  · exact ⟨[_], rfl, by simp, hsettle _⟩
  · exact ⟨[_], rfl, by simp, hsettle _⟩
  · split
    · exact ⟨[_], rfl, by simp, hsettle _⟩
    · split
      · next owner _ =>
        have hdrop : Sheltered [.drop owner] := .singleton _
        exact ⟨[.drop owner, _], rfl, by simp, hdrop.settle _ _⟩
      · exact ⟨[_], rfl, by simp, hsettle _⟩

theorem stack_advance_settle (s : State) (puts : List (String × Handle)) (pending : Pending)
    (rest : List Task) :
    ∃ above, (advance s (.settle puts pending) rest).stack = above ++ rest ∧
      (∀ c, .perform c ∉ above) ∧ Confined above := by
  cases pending with
  | answer a => exact stack_settle s puts a rest
  | failed | observed => exact stack_resolve s puts _ rest

/-- A step takes the top of the stack off and may put tasks in its place; the commands among them
obey. -/
theorem stack_advance {s : State} {t : Task} {rest : List Task} (hL : (s.ledger (t :: rest)).Sound)
    (hs : (s.ledger (t :: rest)).Obeys p) (hc : ∀ c, t = .perform c → c.All p) :
    ∃ above, (advance s t rest).stack = above ++ rest ∧ ∀ c, .perform c ∈ above → c.All p := by
  cases t with
  | perform c =>
    have hbooks : State.Books p (s.ledger rest) rest (s.begin c) := State.books_begin hL (hc c rfl)
    exact ⟨_, rfl, hbooks.obeys⟩
  | drop h => exact ⟨_, rfl, fun c => State.obeys_giveBack hs⟩
  | destroy r => exact ⟨_, rfl, fun c hc => absurd hc State.perform_notMem_destroy⟩
  | report | finish | throw | resume | join => exact ⟨[], rfl, by simp⟩
  | spawn handles =>
    cases handles with
    | nil => exact ⟨[], rfl, by simp⟩
    | cons h handles => exact ⟨[.drop h, .join, .spawn handles], rfl, by simp⟩
  | settle puts pending =>
    obtain ⟨above, hstack, hnone, -⟩ := stack_advance_settle s puts pending rest
    exact ⟨above, hstack, fun c hc => absurd hc (hnone c)⟩

theorem stack_unwind {s : State} {t : Task} {rest : List Task}
    (hs : (s.ledger (t :: rest)).Obeys p) (e : Panic) :
    ∃ above, (unwind s e t rest).stack = above ++ rest ∧ ∀ c, .perform c ∈ above → c.All p := by
  cases t with
  | drop h =>
    refine ⟨(s.giveBack h).2 ++ [.resume e], by simp [unwind, run], fun c hc => ?_⟩
    exact State.obeys_giveBack hs (by simpa using hc)
  | perform | report | finish | destroy | throw | resume | join => exact ⟨[], rfl, by simp⟩
  | spawn handles =>
    cases handles with
    | nil => exact ⟨[], rfl, by simp⟩
    | cons h handles => exact ⟨[.drop h, .join, .spawn handles, .resume e], rfl, by simp⟩
  | settle puts pending => exact ⟨[.settle puts (.answer (.panicked e))], rfl, by simp⟩

/-- The stack of a machine after a step. -/
theorem stack_step (hL : m.ledger.Sound) (hm : m.Obeys p) {t : Task} {rest : List Task}
    (hstack : m.stack = t :: rest) (hcontrol : ∀ layout, m.control ≠ .aborted layout) :
    ∃ above, m.step.stack = above ++ rest ∧ ∀ c, .perform c ∈ above → c.All p := by
  obtain ⟨s, control, stack⟩ := m
  obtain rfl : stack = t :: rest := hstack
  cases control with
  | running => exact stack_advance hL hm.scripts fun c ht => hm.stack c (by simp [ht])
  | unwinding e => exact stack_unwind hm.scripts e
  | aborted layout => exact absurd rfl (hcontrol layout)

theorem exists_of_not_halted (h : m.halted ≠ true) :
    ∃ t rest, m.stack = t :: rest ∧ ∀ layout, m.control ≠ .aborted layout := by
  obtain ⟨s, control, stack⟩ := m
  cases control <;> cases stack <;> simp_all [halted]

/-- A machine that has nothing left to do stays as it is. -/
theorem step_of_halted (h : m.halted = true) : m.step = m := by
  obtain ⟨s, control, stack⟩ := m
  cases control <;> cases stack <;> simp_all [halted, step]

/-! ### Panics -/

/-- The tasks of a teardown keep what lies among them from being lost, and panics in. -/
theorem contained_giveBack (s : State) (h : Handle) : Contained (s.giveBack h).2 := by
  have hnil : Contained [] := ⟨.nil, by simp⟩
  have hfinish : ∀ l, Contained [.finish l] := fun l => ⟨.singleton _, by simp [Task.raisesOther]⟩
  rw [State.giveBack]
  split
  · exact hnil
  · next l _ =>
    split
    · rw [State.giveBackStrong]
      split
      · exact hnil
      · split
        · split
          · exact hfinish l
          · next action _ =>
            have htasks := action.contained_tasks
            refine ⟨(htasks _).append (hfinish l).sheltered (by simp [Task.isLost]), ?_⟩
            exact List.forall_mem_append.2 ⟨(htasks _).release, (hfinish l).release⟩
        · exact hnil
    · exact hnil

theorem contained_destroy (s : State) (r : Nat) : Contained (s.destroy r).2 := by
  rw [State.destroy]
  split
  · exact ⟨.nil, by simp⟩
  · exact contained_of_forall (by simp [Task.isLost, Task.raisesOther])

/-- Putting handles back unwinds nothing. -/
theorem control_advance_settle (s : State) (puts : List (String × Handle)) (pending : Pending)
    (rest : List Task) (e : Panic) :
    (advance s (.settle puts pending) rest).control ≠ .unwinding e := by
  cases pending with
  | answer a => rcases puts with _ | ⟨⟨slot, h⟩, puts⟩ <;> simp [advance, settle]
  | failed layout onFailure => cases onFailure <;> simp [advance, resolve]
  | observed =>
    simp only [advance, resolve]
    split
    · simp
    · split <;> simp

theorem panicSafe_advance {s : State} {t : Task} {rest : List Task} (hs : Sheltered (t :: rest))
    (hc : ∀ c, t = .perform c → Confined (s.begin c).2) : (advance s t rest).PanicSafe := by
  have hrest : Sheltered rest := (sheltered_cons.1 hs).2
  cases t with
  | perform c => exact .of_control (by simp [advance, run]) ((hc c rfl).append hrest)
  | report | finish | join => exact .of_control (by simp [advance]) hrest
  | drop h =>
    exact .of_control (by simp [advance, run]) ((contained_giveBack s h).append hrest (hs.head rfl))
  | destroy r =>
    exact .of_control (by simp [advance, run]) ((contained_destroy s r).append hrest (hs.head rfl))
  | throw q =>
    refine ⟨hrest, fun _ _ => hs.head rfl, fun e he hne => hs.catches ?_⟩
    obtain rfl : q = e := by
      simp only [advance] at he
      split at he <;> cases he
      rfl
    simpa [Task.raisesOther] using hne
  | resume q =>
    refine ⟨hrest, fun _ _ => hs.head rfl, fun e he hne => hs.catches ?_⟩
    obtain rfl : q = e := Control.unwinding.inj he
    simpa [Task.raisesOther] using hne
  | spawn handles =>
    cases handles with
    | nil => exact .of_control (by simp [advance]) hrest
    | cons h handles =>
      have habove : Contained [.drop h, .join, .spawn handles] :=
        contained_of_forall (by simp [Task.isLost, Task.raisesOther])
      exact .of_control (by simp [advance]) (habove.append hrest (hs.head rfl))
  | settle puts pending =>
    obtain ⟨above, hstack, -, hconfined⟩ := stack_advance_settle s puts pending rest
    exact .of_control (control_advance_settle s puts pending rest)
      (hstack ▸ hconfined.append hrest)

theorem panicSafe_unwind {s : State} {t : Task} {rest : List Task} (e : Panic)
    (hs : Sheltered (t :: rest)) (ht : t.isLost = false) (hcaught : e ≠ .release → t.catches) :
    (unwind s e t rest).PanicSafe := by
  have hrest : Sheltered rest := (sheltered_cons.1 hs).2
  have hrelease : t.catches = false → e = .release := by
    intro hnot
    by_contra hne
    simp [hcaught hne] at hnot
  have hon : ∀ s', t.confines = false → t.catches = false →
      PanicSafe ⟨s', .unwinding e, rest⟩ := by
    refine fun s' hleaves hnot => ⟨hrest, fun _ _ => hs.head hleaves, fun e' he hne => ?_⟩
    exact absurd ((Control.unwinding.inj he).symm.trans (hrelease hnot)) hne
  cases t with
  | perform | report | destroy => cases ht
  | finish | throw | join => exact hon _ rfl rfl
  | resume q =>
    refine ⟨hrest, fun _ _ => hs.head rfl, fun e' he hne => hs.catches ?_⟩
    obtain rfl : q = e' := Control.unwinding.inj he
    simpa [Task.raisesOther] using hne
  | drop h =>
    have hresume : Sheltered (.resume e :: rest) := by
      refine sheltered_cons.2 ⟨fun t' ht' => ⟨fun hlost => ?_, fun hraises => ?_⟩, hrest⟩
      · simp [hs.head rfl t' ht'] at hlost
      · simp [Task.raisesOther, hrelease rfl] at hraises
    exact .of_control (by simp [unwind, run])
      ((contained_giveBack s h).append hresume (by simp [Task.isLost]))
  | spawn handles =>
    cases handles with
    | nil => exact hon _ rfl rfl
    | cons h handles =>
      have habove : Contained [.drop h, .join, .spawn handles, .resume e] :=
        contained_of_forall (by simp [Task.isLost, Task.raisesOther, hrelease rfl])
      exact .of_control (by simp [unwind]) (habove.append hrest (hs.head rfl))
  | settle puts pending =>
    refine .of_control (by simp [unwind]) (sheltered_cons.2 ⟨fun _ _ => ⟨fun _ => rfl, ?_⟩, hrest⟩)
    simp [Task.raisesOther]

/-- No step brings a panic to what would be lost. -/
theorem Obeys.panicSafe_step (hL : m.ledger.Sound) (hm : m.Obeys p) : m.step.PanicSafe := by
  obtain ⟨s, control, stack⟩ := m
  rcases stack with _ | ⟨t, rest⟩
  · cases control <;> exact hm.safe
  · cases control with
    | running =>
      refine panicSafe_advance hm.safe.stack fun c ht => ?_
      subst ht
      have hbooks : State.Books p (s.ledger rest) rest (s.begin c) :=
        State.books_begin hL (hm.stack c (by simp))
      exact hbooks.confined
    | unwinding e =>
      exact panicSafe_unwind e hm.safe.stack (hm.safe.unwinding e rfl t rfl)
        fun hne => hm.safe.caught e rfl hne t rfl
    | aborted layout => exact hm.safe

/-- The commands that a step adds obey. -/
theorem Obeys.step (hL : m.ledger.Sound) (hm : m.Obeys p) : m.step.Obeys p := by
  refine ⟨?_, (step_ledger hL hm).obeys hm.scripts, hm.panicSafe_step hL⟩
  by_cases hhalted : m.halted = true
  · rw [step_of_halted hhalted]
    exact hm.stack
  · obtain ⟨t, rest, hstack, hcontrol⟩ := exists_of_not_halted hhalted
    obtain ⟨above, hstack', habove⟩ := stack_step hL hm hstack hcontrol
    intro c hc
    rw [hstack', List.mem_append] at hc
    rcases hc with hc | hc
    · exact habove c hc
    · exact hm.stack c (by simp [hstack, hc])

/-- The ledger of every machine that some run passes through is sound. -/
theorem ReachableBy.sound_obeys (h : ReachableBy p m) : m.ledger.Sound ∧ m.Obeys p := by
  induction h with
  | refl =>
    refine ⟨Ledger.sound_init, by simp, fun l b action hb => ?_, .of_control (by simp) .nil⟩
    cases (Table.get?_empty l).symm.trans hb
  | @tail n _ _ hmove ih =>
    obtain ⟨hL, hm⟩ := ih
    cases hmove with
    | step => exact ⟨(step_ledger hL hm).sound hL, hm.step hL⟩
    | command c hc hcontrol hstack =>
      obtain ⟨s, control, stack⟩ := n
      obtain rfl : stack = [] := hstack
      have hsafe : PanicSafe ⟨s, control, [.perform c]⟩ :=
        .of_control (fun e he => by cases hcontrol.symm.trans he) (.singleton _)
      exact ⟨hL, by simpa using hc, hm.scripts, hsafe⟩

theorem ReachableBy.sound (h : ReachableBy p m) : m.ledger.Sound := h.sound_obeys.1

/-- What holds of the first ledger and is kept by every step from a sound ledger holds of the ledger
of every machine that some run passes through. -/
theorem ReachableBy.ledger_induction {P : Ledger → Prop} (hinit : P (({} : Machine).ledger))
    (hstep : ∀ L L', L.Sound → Ledger.Step p L L' → P L → P L') (h : ReachableBy p m) :
    P m.ledger := by
  induction h with
  | refl => exact hinit
  | @tail n _ hn hmove ih =>
    obtain ⟨hL, hm⟩ := ReachableBy.sound_obeys hn
    cases hmove with
    | step => exact hstep _ _ hL (step_ledger hL hm) ih
    | command c hc hcontrol hstack =>
      obtain ⟨s, control, stack⟩ := n
      obtain rfl : stack = [] := hstack
      exact ih

end Machine

end SharedOwnership
