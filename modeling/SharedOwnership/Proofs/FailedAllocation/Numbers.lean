import SharedOwnership.Proofs.Termination

/-!
# Release actions are entered once

Each release action with a script gets a number of its own when it is supplied. It either waits in a
block until it is started, and is taken out of the block then, or it is entered at once because the
block could not be allocated; so no number is entered twice.

## Main definitions

* `Heap.Awaits` — whether the release action of a number is still to be started.
* `State.timesEntered` — how often the trace tells of the entry into a release action.
* `State.Numbers` — what a step does to the numbers.

## Main results

* `Machine.fresh_of_reachable` — a number that was not given out yet is entered nowhere.
* `Machine.Entered.leads` — a release action that was entered is not entered again.
-/

namespace SharedOwnership

/-- The number of a release action that has one. -/
def ReleaseAction.number? : ReleaseAction → Option Nat
  | .discard => none
  | .scripted n _ _ _ => some n

/-- Whether an event is the entry into the release action numbered `n`. -/
def Event.enters (n : Nat) : Event → Bool
  | .entered k _ => k = n
  | _ => false

namespace Heap

/-- The release action numbered `n` waits in a block until it is started. -/
def Awaits (heap : Heap) (n : Nat) : Prop :=
  ∃ l b action, heap.blocks.get? l = some b ∧ b.action = some action ∧ action.number? = some n

/-- Every release action that waits has waited before. -/
def NoneComes (heap heap' : Heap) : Prop :=
  ∀ l b' action, heap'.blocks.get? l = some b' → b'.action = some action →
    ∃ b, heap.blocks.get? l = some b ∧ b.action = some action

namespace NoneComes

variable {heap heap' heap'' : Heap} {k : Kind} {l : Nat} {b b' : Block} {h : Handle}

theorem of_blocks (h : heap'.blocks = heap.blocks) : heap.NoneComes heap' :=
  fun _ b' _ hb' haction => ⟨b', h ▸ hb', haction⟩

theorem trans (h : heap.NoneComes heap') (h' : heap'.NoneComes heap'') : heap.NoneComes heap'' := by
  intro l b'' action hb'' haction
  obtain ⟨b', hb', haction'⟩ := h' l b'' action hb'' haction
  exact h l b' action hb' haction'

theorem awaits {n : Nat} (h : heap.NoneComes heap') (hn : heap'.Awaits n) : heap.Awaits n := by
  obtain ⟨l, b', action, hb', haction, hnumber⟩ := hn
  obtain ⟨b, hb, haction'⟩ := h l b' action hb' haction
  exact ⟨l, b, action, hb, haction', hnumber⟩

theorem modifyBlock {f : Block → Block} (hf : ∀ b, (f b).action = b.action ∨ (f b).action = none) :
    heap.NoneComes (heap.modifyBlock l f) := by
  intro l' b' action hb' haction
  rw [Heap.modifyBlock, Table.get?_modify] at hb'
  split at hb'
  · obtain ⟨b, hb, rfl⟩ := Option.map_eq_some_iff.1 hb'
    rcases hf b with hsame | hnone
    · exact ⟨b, hb, hsame.symm.trans haction⟩
    · cases hnone.symm.trans haction
  · exact ⟨b', hb', haction⟩

theorem setBlock (hb : heap.blocks.get? l = some b) (hb' : b'.action = b.action) :
    heap.NoneComes (heap.setBlock l b') := by
  intro l' c action hc haction
  rw [get?_setBlock hb] at hc
  split at hc
  · next heq =>
    cases hc
    exact ⟨b, heq ▸ hb, hb'.symm.trans haction⟩
  · exact ⟨c, hc, haction⟩

theorem erase : heap.NoneComes { heap with blocks := heap.blocks.erase l } := by
  intro l' b' action hb' haction
  rw [Table.get?_erase] at hb'
  split at hb'
  · cases hb'
  · exact ⟨b', hb', haction⟩

theorem share : heap.NoneComes (heap.share h k).1 := by
  rw [Heap.share]
  split
  · exact .of_blocks rfl
  · next l _ =>
    simp only [addUnit]
    split
    · exact .modifyBlock fun b => .inl (Block.action_addUnit b k)
    · exact .of_blocks rfl

theorem lock : heap.NoneComes (heap.lock h).1 := by
  rw [Heap.lock]
  split
  · exact .of_blocks rfl
  · split
    · exact .of_blocks rfl
    · next b hb =>
      split
      · exact .of_blocks rfl
      · next b' hp =>
        obtain ⟨-, -, rfl⟩ := Block.promote_eq_some.1 hp
        exact .setBlock hb rfl
      · exact .of_blocks rfl

theorem forget : heap.NoneComes (heap.forget h) := by
  rw [Heap.forget]
  split
  · exact .modifyBlock fun _ => .inl rfl
  · exact .of_blocks rfl

theorem churn (h : Handle) (rounds threads : Nat) :
    heap.NoneComes (heap.churn h rounds threads).1 :=
  churn_induction (P := heap.NoneComes) (fun _ _ _ hP => hP.trans share)
    (fun _ _ hP => hP.trans lock) (fun _ _ hP => hP.trans forget) h rounds threads (.of_blocks rfl)

end NoneComes

end Heap

namespace State

/-- How often the trace tells of the entry into the release action numbered `n`. -/
def timesEntered (s : State) (n : Nat) : Nat := s.trace.countP (Event.enters n)

/-- What comes after a state: the release actions that wait have waited before or were supplied
meanwhile, and so did those that were entered, each of them once. -/
structure Numbers (s s' : State) : Prop where
  le : s.numbered ≤ s'.numbered
  awaits : ∀ n, s'.heap.Awaits n → s.heap.Awaits n ∨ s.numbered < n ∧ n ≤ s'.numbered
  entered : ∀ n, s'.timesEntered n = s.timesEntered n ∨
    s'.timesEntered n = s.timesEntered n + 1 ∧
      (s.heap.Awaits n ∨ s.numbered < n ∧ n ≤ s'.numbered)

variable {s s' : State} {n : Nat} {slot target : String} {h : Handle} {ty : Ty}
  {content : Option (Content.Of ty)} {carried layout : Layout} {action : ReleaseAction}
  {fails : Bool} {tasks : List Task} {next : State × List Task}

/-- Nothing is entered or supplied. -/
structure Still (s s' : State) : Prop where
  numbered : s'.numbered = s.numbered
  heap : s.heap.NoneComes s'.heap
  entered : ∀ n, s'.timesEntered n = s.timesEntered n

theorem Still.numbers (h : s.Still s') : s.Numbers s' :=
  ⟨h.numbered.ge, fun _ hn => .inl (h.heap.awaits hn), fun n => .inl (h.entered n)⟩

theorem Still.refl (s : State) : s.Still s := ⟨rfl, .of_blocks rfl, fun _ => rfl⟩

theorem Still.withHeap {heap : Heap} (h : s.heap.NoneComes heap) : s.Still { s with heap } :=
  ⟨rfl, h, fun _ => rfl⟩

theorem Still.record {e : Event} (he : ∀ n, e.enters n = false) : s.Still (s.record e) :=
  ⟨rfl, .of_blocks rfl, fun n => by simp [timesEntered, State.record, he n]⟩

/-- The entry into a release action is told. -/
theorem timesEntered_start (s : State) (action : ReleaseAction) (resource : Option Nat) (n : Nat) :
    (s.start action resource).1.timesEntered n =
      s.timesEntered n + if action.number? = some n then 1 else 0 := by
  cases action with
  | discard => simp [start, ReleaseAction.number?]
  | scripted k =>
    simp only [start, State.record, timesEntered, List.countP_cons, Event.enters,
      ReleaseAction.number?, Option.some.injEq, decide_eq_true_eq]

/-- A release action that is entered has waited. -/
theorem numbers_start {resource : Option Nat} (hs : s.Still s')
    (hawaits : ∀ n, action.number? = some n → s.heap.Awaits n) :
    s.Numbers (s'.start action resource).1 := by
  have hnumbered : (s'.start action resource).1.numbered = s'.numbered := by
    cases action <;> rfl
  refine ⟨(hnumbered.trans hs.numbered).ge, fun n hn => .inl ?_, fun n => ?_⟩
  · rw [heap_start] at hn
    exact hs.heap.awaits hn
  · rw [timesEntered_start, hs.entered n]
    split
    · next hnumber => exact .inr ⟨rfl, .inl (hawaits n hnumber)⟩
    · exact .inl rfl

/-! ### Teardown -/

theorem still_giveBackWeak (s : State) (l : Nat) : s.Still (s.giveBackWeak l) := by
  rw [giveBackWeak]
  split
  · exact .refl s
  · split
    · exact ⟨rfl, .erase, fun n => by simp [timesEntered, State.record, Event.enters]⟩
    · exact .withHeap (.modifyBlock fun _ => .inl rfl)

/-- The release action that is entered has waited in the block. -/
theorem numbers_giveBackStrong (s : State) (l : Nat) : s.Numbers (s.giveBackStrong l).1 := by
  rw [giveBackStrong]
  split
  · exact (Still.refl s).numbers
  · next b hb =>
    have hremove : s.heap.NoneComes (s.heap.removeUnit .strong l) := .modifyBlock fun _ => .inl rfl
    simp only
    split
    · split
      · refine Still.numbers ⟨rfl, hremove, fun n => ?_⟩
        simp [timesEntered, State.record, Event.enters]
      · next action haction =>
        have hheap : s.heap.NoneComes ((s.heap.removeUnit .strong l).modifyBlock l
            fun b => { b with action := none }) := hremove.trans (.modifyBlock fun _ => .inr rfl)
        refine numbers_start ⟨rfl, hheap, fun n => ?_⟩
          fun n hnumber => ⟨l, b, action, hb, haction, hnumber⟩
        simp [timesEntered, State.record, Event.enters]
    · exact (Still.withHeap hremove).numbers

theorem numbers_giveBack (s : State) (h : Handle) : s.Numbers (s.giveBack h).1 := by
  rw [giveBack]
  split
  · exact (Still.refl s).numbers
  · split
    · exact numbers_giveBackStrong s _
    · exact (still_giveBackWeak s _).numbers

theorem still_destroy (s : State) (r : Nat) : s.Still (s.destroy r).1 := by
  rw [destroy]
  split
  · exact .refl s
  · next x _ =>
    split
    · next e he =>
      refine ⟨rfl, .of_blocks rfl, fun n => ?_⟩
      have hnone : e.enters n = false := by
        cases hx : x.content <;> simp [dropped, hx] at he <;> subst he <;> rfl
      simp [timesEntered, State.record, hnone]
    · exact ⟨rfl, .of_blocks rfl, fun _ => rfl⟩

/-! ### Commands -/

theorem still_deliver {made : Heap × Except Panic Handle} (answer : Handle → Answer)
    (hmade : s.heap.NoneComes made.1) : s.Still (s.deliver slot made answer).1 := by
  rw [deliver]
  split <;> exact ⟨rfl, hmade, fun _ => rfl⟩

theorem still_setBlock {l : Nat} {side : Kind} {reason : Refusal} {f : Block → Option Block}
    (hf : ∀ b b', f b = some b' → b'.action = b.action)
    (h : s.setBlock l side reason f = .ok next) : s.Still next.1 := by
  rw [setBlock] at h
  split at h
  · cases h
  · next b hb =>
    split at h
    · cases h
    · next b' hf' =>
      cases h
      exact .withHeap (.setBlock hb (hf b b' hf'))

theorem still_takeAll (s : State) (names : List String) : s.Still (s.takeAll names).1 := by
  induction names generalizing s with
  | nil => exact .refl s
  | cons name names ih =>
    rw [takeAll]
    split
    · exact .refl s
    · have hrest := ih (s.vacate name)
      exact ⟨hrest.numbered, hrest.heap, hrest.entered⟩

/-- An adoption makes the release action wait, or it enters it. -/
theorem numbers_adoption (s : State) (ty : Ty) (content : Option (Content.Of ty)) (carried : Layout)
    (action : ReleaseAction) (fails : Bool) :
    let s' := (s.adoption ty content carried action fails).1
    s'.numbered = s.numbered ∧
      (∀ n, s'.heap.Awaits n → s.heap.Awaits n ∨ action.number? = some n) ∧
      ∀ n, s'.timesEntered n = s.timesEntered n ∨
        s'.timesEntered n = s.timesEntered n + 1 ∧ action.number? = some n := by
  cases fails with
  | false =>
    rw [adoption_false]
    refine ⟨rfl, fun n hn => ?_, fun n => .inl ?_⟩
    · obtain ⟨l, b, action', hb, haction, hnumber⟩ := hn
      simp only [State.record, Heap.get?_allocate] at hb
      split at hb
      · cases hb
        obtain rfl := Option.some.inj haction
        exact .inr hnumber
      · rw [Heap.blocks_keep] at hb
        exact .inl ⟨l, b, action', hb, haction, hnumber⟩
    · simp [timesEntered, State.record, Event.enters]
  | true =>
    rw [adoption_true]
    refine ⟨?_, fun n hn => .inl ?_, fun n => ?_⟩
    · cases action <;> rfl
    · rw [heap_start] at hn
      have hkeep : s.heap.NoneComes (s.heap.keep (content.map Subtype.val)).1 :=
        .of_blocks (Heap.blocks_keep ..)
      exact hkeep.awaits hn
    · rw [timesEntered_start]
      split
      · next hnumber => exact .inr ⟨by simp [timesEntered, State.record, Event.enters], hnumber⟩
      · exact .inl (by simp [timesEntered, State.record, Event.enters])

/-- A property of every result of an operation that another one comes after. -/
theorem bind_forall {ε α β : Type} {x : Except ε α} {f : α → Except ε β} {P : β → Prop}
    (h : ∀ a, x = .ok a → ∀ b, f a = .ok b → P b) : ∀ b, x >>= f = .ok b → P b := by
  intro b hb
  obtain ⟨a, ha, hfa⟩ := bind_eq_ok.1 hb
  exact h a ha b hfa

/-- A command that adopts nothing enters nothing, and it supplies no release action. -/
theorem still_plan {c : Command} (hc : c.adopts = false) :
    ∀ next, s.plan c = .ok next → s.Still next.1 := by
  have hsame : ∀ next : State × List Task, next.1.numbered = s.numbered →
      next.1.heap = s.heap → next.1.trace = s.trace → s.Still next.1 := by
    intro next hnumbered hheap htrace
    exact ⟨hnumbered, .of_blocks (by rw [hheap]), fun n => by rw [timesEntered, htrace]; rfl⟩
  have hok : ∀ {next : State × List Task}, s.Still next.1 →
      ∀ next', Except.ok (ε := Refusal) next = .ok next' → s.Still next'.1 := by
    rintro next hstill _ ⟨⟩
    exact hstill
  cases c with
  | create | adopt | replace => cases hc
  | malformed guards reason => exact bind_forall fun _ _ _ h => by cases h
  | empty target kind ty => exact bind_forall fun _ _ => hok (hsame _ rfl rfl rfl)
  | clone name target =>
    exact bind_forall fun _ _ => bind_forall fun g _ => hok (still_deliver _ .share)
  | take name target =>
    exact bind_forall fun _ _ => bind_forall fun _ _ => hok (hsame _ rfl rfl rfl)
  | downgrade name target =>
    exact bind_forall fun _ _ => bind_forall fun g _ => bind_forall fun _ _ =>
      hok (still_deliver _ .share)
  | lock name target =>
    exact bind_forall fun _ _ => bind_forall fun g _ => bind_forall fun _ _ =>
      hok (still_deliver _ .lock)
  | drop name | dropOnThread name | reset name =>
    exact bind_forall fun _ _ => hok (hsame _ rfl rfl rfl)
  | swap name other =>
    exact bind_forall (x := s.pair name other) fun _ _ => hok (hsame _ rfl rfl rfl)
  | assign name source =>
    refine bind_forall (x := s.pair name source) fun pair _ => ?_
    have hshare : s.heap.NoneComes (s.heap.clone pair.2).1 := .share
    simp only
    rcases hmade : s.heap.clone pair.2 with ⟨heap, e | new⟩ <;> rw [hmade] at hshare
    all_goals exact hok ⟨rfl, hshare, fun _ => rfl⟩
  | sameAddress name other =>
    refine bind_forall fun h _ => bind_forall fun g _ => ?_
    split
    · exact fun _ h => by cases h
    · exact bind_forall fun _ _ => hok (.refl s)
  | sameOwner name other =>
    refine bind_forall fun h _ => bind_forall fun g _ => ?_
    split
    · exact fun _ h => by cases h
    · exact bind_forall fun _ _ => hok (.refl s)
  | read name access =>
    refine bind_forall fun h _ => bind_forall fun _ _ => ?_
    split <;> exact hok (.refl s)
  | inspect name => exact bind_forall fun _ _ => hok (.refl s)
  | debug name style =>
    refine bind_forall fun h _ => ?_
    cases style with
    | none => exact fun _ h => by cases h
    | some style => exact hok (.refl s)
  | showPointer name style =>
    refine bind_forall fun h _ => bind_forall fun _ _ => ?_
    cases style with
    | none => exact fun _ h => by cases h
    | some style => exact hok (.refl s)
  | project name target f =>
    intro next hplan
    obtain ⟨-, g, f', ty, -, -, -, rfl⟩ := plan_project hplan
    rw [project]
    split <;> exact hsame _ rfl rfl rfl
  | projectClone name target f =>
    refine bind_forall fun _ _ => bind_forall fun h _ => ?_
    split
    · exact fun _ h => by cases h
    · next f' ty _ =>
      refine hok ?_
      have hshare : s.heap.NoneComes (s.heap.clone h).1 := .share
      rw [projectClone]
      rcases hmade : s.heap.clone h with ⟨heap, e | copy⟩ <;> rw [hmade] at hshare
      · exact .withHeap hshare
      · simp only
        split <;> exact ⟨rfl, hshare, fun _ => rfl⟩
  | link name child =>
    refine bind_forall fun g _ => bind_forall fun h _ => bind_forall fun node _ => hok ?_
    exact ⟨rfl, .of_blocks rfl, fun _ => rfl⟩
  | unlink name target index =>
    refine bind_forall fun _ _ => bind_forall fun h _ => bind_forall fun node _ => ?_
    split
    · exact fun _ h => by cases h
    · exact hok ⟨rfl, .of_blocks rfl, fun _ => rfl⟩
  | churn name threads rounds =>
    exact bind_forall fun h _ => hok (.withHeap (.churn h rounds threads))
  | raceDrop names =>
    have htake := still_takeAll s names
    simp only [plan]
    split <;> next hmade =>
      rw [hmade] at htake
      exact hok htake
  | raceLock name observer =>
    refine bind_forall fun h _ => bind_forall fun _ _ => ?_
    simp only
    split
    · exact hok (hsame _ rfl rfl rfl)
    · split <;> exact hok (hsame _ rfl rfl rfl)
  | leak block side n =>
    refine fun next => still_setBlock fun b b' hlend => ?_
    obtain ⟨-, rfl⟩ := Block.lend_eq_some hlend
    rfl
  | unleak block side n =>
    refine fun next => still_setBlock fun b b' htake => ?_
    obtain ⟨-, -, rfl⟩ := Block.takeBack_eq_some htake
    rfl
  | slots => exact hok (.refl s)

/-- An adoption under a release action that has just been numbered, or that needs no number. -/
theorem numbers_adopted (hheap : s'.heap = s.heap) (htrace : s'.trace = s.trace)
    (hle : s.numbered ≤ s'.numbered)
    (hnumber : ∀ n, action.number? = some n → s.numbered < n ∧ n ≤ s'.numbered) :
    s.Numbers (s'.adoption ty content carried action fails).1 := by
  obtain ⟨hnumbered, hawaits, hentered⟩ := numbers_adoption s' ty content carried action fails
  have htimes : ∀ n, s'.timesEntered n = s.timesEntered n := fun n => by
    rw [timesEntered, htrace, timesEntered]
  refine ⟨hnumbered ▸ hle, fun n hn => ?_, fun n => ?_⟩
  · rw [hnumbered]
    exact (hheap ▸ hawaits n hn).imp_right (hnumber n)
  · rw [hnumbered, ← htimes n]
    exact (hentered n).imp_right (.imp_right fun h => .inr (hnumber n h))

theorem numbers_adoptInto (target : String) (onFailure : OnFailure) (hheap : s'.heap = s.heap)
    (htrace : s'.trace = s.trace) (hle : s.numbered ≤ s'.numbered)
    (hnumber : ∀ n, action.number? = some n → s.numbered < n ∧ n ≤ s'.numbered) :
    s.Numbers (s'.adoptInto target ty content carried action onFailure fails).1 := by
  have hnumbers : s.Numbers (s'.adoption ty content carried action fails).1 :=
    numbers_adopted hheap htrace hle hnumber
  rw [adoptInto]
  rcases hmade : s'.adoption ty content carried action fails with ⟨made, e | h⟩ <;>
    rw [hmade] at hnumbers <;> exact ⟨hnumbers.le, hnumbers.awaits, hnumbers.entered⟩

/-- A command supplies one release action at most, and that has a new number if it has one. -/
theorem numbers_begin (s : State) (c : Command) : s.Numbers (s.begin c).1 := by
  suffices h : ∀ next, s.plan c = .ok next → s.Numbers next.1 by
    rw [begin]
    split
    · next next hplan => exact h next hplan
    · exact (Still.refl s).numbers
  cases c with
  | create target ty content onFailure fails =>
    refine bind_forall fun _ _ => ?_
    rintro _ ⟨⟩
    exact numbers_adoptInto target onFailure rfl rfl (Nat.le_refl _)
      (by simp [ReleaseAction.number?])
  | adopt target ty content onFailure terms script =>
    refine bind_forall fun _ _ => ?_
    rintro _ ⟨⟩
    exact numbers_adoptInto target onFailure rfl rfl (Nat.le_succ _)
      (by simp [ReleaseAction.number?])
  | replace name value terms script =>
    refine bind_forall fun h _ => bind_forall fun _ _ => ?_
    have hreplace : ∀ content, s.Numbers (s.replace name h content terms script).1 := by
      intro content
      have hnumbers : s.Numbers (s.number.1.adoption h.ty content terms.carried
          (.scripted s.number.2 h.ty script terms.panics) terms.fails).1 :=
        numbers_adopted rfl rfl (Nat.le_succ _) (by simp [ReleaseAction.number?, number])
      rw [replace]
      simp only
      rcases hmade : s.number.1.adoption h.ty content terms.carried
        (.scripted s.number.2 h.ty script terms.panics) terms.fails with ⟨s', e | h⟩ <;>
        rw [hmade] at hnumbers <;> exact ⟨hnumbers.le, hnumbers.awaits, hnumbers.entered⟩
    cases value
    all_goals
      refine bind_forall fun content _ => ?_
      rintro _ ⟨⟩
      exact hreplace content
  | _ => exact fun next hplan => (still_plan rfl next hplan).numbers

end State

namespace Machine

variable {m k : Machine} {n : Nat}

theorem still_advance_settle (s : State) (puts : List (String × Handle)) (pending : Pending)
    (rest : List Task) : s.Still (advance s (.settle puts pending) rest).state := by
  cases pending with
  | answer a =>
    rcases puts with _ | ⟨⟨slot, h⟩, puts⟩ <;> exact ⟨rfl, .of_blocks rfl, fun _ => rfl⟩
  | failed layout onFailure =>
    cases onFailure <;> exact ⟨rfl, .of_blocks rfl, fun _ => rfl⟩
  | observed =>
    simp only [advance, resolve]
    split
    · exact .refl s
    · next slot w puts =>
      have hlock : s.heap.NoneComes (s.heap.lock w).1 := .lock
      split <;> next heap _ hmade =>
        rw [hmade] at hlock
        exact .withHeap hlock

theorem numbers_step (m : Machine) : m.state.Numbers m.step.state := by
  obtain ⟨s, control, _ | ⟨t, rest⟩⟩ := m
  · cases control <;> exact (State.Still.refl s).numbers
  cases control with
  | aborted layout => exact (State.Still.refl s).numbers
  | running =>
    cases t with
    | perform c => exact s.numbers_begin c
    | drop h => exact s.numbers_giveBack h
    | report =>
      have hstill : s.Still (s.record (.performed s.answer)) := .record fun _ => rfl
      exact hstill.numbers
    | finish l => exact (s.still_giveBackWeak l).numbers
    | destroy r => exact (s.still_destroy r).numbers
    | throw | resume | join => exact (State.Still.refl s).numbers
    | spawn handles => cases handles <;> exact (State.Still.refl s).numbers
    | settle puts pending => exact (still_advance_settle s puts pending rest).numbers
  | unwinding e =>
    cases t with
    | drop h => exact s.numbers_giveBack h
    | finish l =>
      have hstill : s.Still (s.abandon l) := .withHeap (.modifyBlock fun _ => .inl rfl)
      exact hstill.numbers
    | perform | report | destroy | throw | resume | join | settle =>
      exact (State.Still.refl s).numbers
    | spawn handles => cases handles <;> exact (State.Still.refl s).numbers

/-- A number that was not given out yet belongs to no release action that waits or was entered. -/
theorem fresh_of_reachable (hm : m.Reachable) (hn : m.state.numbered < n) :
    ¬ m.state.heap.Awaits n ∧ m.state.timesEntered n = 0 := by
  induction hm with
  | refl =>
    refine ⟨?_, rfl⟩
    rintro ⟨l, b, action, hb, -⟩
    cases (Table.get?_empty l).symm.trans hb
  | @tail j _ _ hmove ih =>
    cases hmove with
    | command => exact ih hn
    | step =>
      obtain ⟨hle, hawaits, hentered⟩ := numbers_step j
      obtain ⟨hnone, hzero⟩ := ih (Nat.lt_of_le_of_lt hle hn)
      refine ⟨fun h => ?_, ?_⟩
      · rcases hawaits n h with hold | hnew
        · exact hnone hold
        · omega
      · rcases hentered n with hsame | ⟨-, hold | hnew⟩
        · exact hsame.trans hzero
        · exact absurd hold hnone
        · omega

/-- The release action numbered `n` was entered once, and it waits nowhere. -/
structure Entered (m : Machine) (n : Nat) : Prop where
  numbered : n ≤ m.state.numbered
  once : m.state.timesEntered n = 1
  not_awaits : ¬ m.state.heap.Awaits n

/-- A release action that was entered is not entered again. -/
theorem Entered.leads {p : Command → Prop} (h : m.Entered n) (hk : Leads p m k) : k.Entered n := by
  induction hk with
  | refl => exact h
  | @tail j _ _ hmove ih =>
    cases hmove with
    | command => exact ⟨ih.numbered, ih.once, ih.not_awaits⟩
    | step =>
      obtain ⟨hle, hawaits, hentered⟩ := numbers_step j
      have hnumbered := ih.numbered
      refine ⟨hnumbered.trans hle, ?_, fun hn => ?_⟩
      · rcases hentered n with hsame | ⟨-, hold | hnew⟩
        · exact hsame.trans ih.once
        · exact absurd hold ih.not_awaits
        · omega
      · rcases hawaits n hn with hold | hnew
        · exact ih.not_awaits hold
        · omega

end Machine

end SharedOwnership
