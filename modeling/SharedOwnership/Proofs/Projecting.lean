import SharedOwnership.Proofs.Exchange

/-!
# A projection moves the share once

A projection is any function that makes a pointer of a pointer, or panics. The handle that is
projected keeps its unit until the function has returned, and then the unit passes to the projected
handle. If the function panics, the handle is dropped as any other one; if there is no pointer, the
function is not called. A clone that is projected brings a unit of its own, which goes again if the
function panics.

## Main definitions

* `Handle.pointedBy` — the pointer that a function makes of that of a handle.
* `State.projectBy`, `State.projectCloneBy` — what it is to project a handle, or a clone of it.
* `Machine.PanicsOnTop` — whether a release action is to panic on top of another panic.
* `Machine.MovesOnce` — what becomes of the unit of a handle that is projected.

## Main results

* `Machine.movesOnce_of_reachable` — no unit is lost and none is given back twice, whatever the
  projection.
-/

namespace SharedOwnership

/-- The function of pointers that a projection is. -/
def Projection.function (f : Projection) (heap : Heap) (q : Pointer) : Except Panic Pointer :=
  f.apply (heap.textBehind q) q

/-- What a projection makes of a pointer does not depend on the control blocks. -/
theorem Projection.function_congr {heap heap' : Heap} (h : heap'.resources = heap.resources)
    (f : Projection) : f.function heap' = f.function heap := by
  funext q
  simp only [Projection.function, Heap.textBehind, h]

/-- The pointer that a function makes of that of a handle; it is called only if there is one. -/
def Handle.pointedBy (h : Handle) (f : Pointer → Except Panic Pointer) :
    Except Panic (Option Pointer) :=
  match h.pointer with
  | none => .ok none
  | some q => (f q).map some

namespace State

/-- Project the handle `h` of the slot `name` by any function into the slot `target`. -/
def projectBy (s : State) (name target : String) (h : Handle) (f : Pointer → Except Panic Pointer)
    (ty : Ty) : State × List Task :=
  match h.pointedBy f with
  | .ok pointer => ((s.vacate name).put target { h with ty, pointer }).reply .done
  | .error e => (s.vacate name, [.drop h, .resume e, .settle [] (.answer .done)])

/-- Project a clone of a handle by any function into the slot `target`. -/
def projectCloneBy (s : State) (target : String) (h : Handle) (f : Pointer → Except Panic Pointer)
    (ty : Ty) : State × List Task :=
  match s.heap.clone h with
  | (heap, .error e) => ({ s with heap } : State).reply (.panicked e)
  | (heap, .ok copy) =>
    match copy.pointedBy f with
    | .ok pointer => (({ s with heap } : State).put target { copy with ty, pointer }).reply .done
    | .error e => ({ s with heap }, [.drop copy, .resume e, .settle [] (.answer .done)])

theorem project_eq (s : State) (name target : String) (h : Handle) (f : Projection) (ty : Ty) :
    s.project name target h f ty = s.projectBy name target h (f.function s.heap) ty := rfl

theorem projectClone_eq (s : State) (target : String) (h : Handle) (f : Projection) (ty : Ty) :
    s.projectClone target h f ty = s.projectCloneBy target h (f.function s.heap) ty := by
  have hr := Heap.resources_clone s.heap h
  rw [projectClone, projectCloneBy]
  rcases hclone : s.heap.clone h with ⟨heap, e | copy⟩
  · rfl
  · rw [hclone] at hr
    rw [← Projection.function_congr hr f]
    rfl

end State

namespace Machine

variable {m : Machine} {name target : String} {h : Handle}
  {f : Pointer → Except Panic Pointer} {ty : Ty} {pointer : Option Pointer} {e : Panic} {a : Answer}
  {above base rest : List Task}

/-! ### The end of a projection -/

/-- Once what lies above the end of a command is worked off, the command ends. -/
theorem worksOff_settle (hm : ¬ m.Aborted) (hstack : m.stack = .settle [] (.answer a) :: rest) :
    WorksOff rest m
      { state := { m.state with answer := m.verdict a }, stack := rest } := by
  have hlast : ∀ a, WorksOff rest { state := m.state, stack := .settle [] (.answer a) :: rest }
      { state := { m.state with answer := a }, stack := rest } := by
    intro a
    have hend : ({ state := { m.state with answer := a }, stack := rest } : Machine).control =
      .running := rfl
    exact .step (.settle [] (.answer a)) [] rfl (not_aborted_of_running rfl)
      (.done rfl (not_aborted_of_running hend))
  obtain ⟨s, control, stack⟩ := m
  obtain rfl : stack = .settle [] (.answer a) :: rest := hstack
  cases control with
  | running => exact hlast a
  | unwinding q => exact .step (.settle [] (.answer a)) [] rfl hm (hlast (.panicked q))
  | aborted layout => exact absurd ⟨layout, rfl⟩ hm

/-- A panic that waited at the end of a command is its answer. -/
theorem worksOff_resume (hm : ¬ m.Aborted)
    (hstack : m.stack = .resume e :: .settle [] (.answer a) :: rest) :
    WorksOff rest m { state := { m.state with answer := .panicked e }, stack := rest } := by
  have hstep : m.step =
      { state := m.state, control := .unwinding e, stack := .settle [] (.answer a) :: rest } := by
    obtain ⟨s, control, stack⟩ := m
    obtain rfl : stack = .resume e :: .settle [] (.answer a) :: rest := hstack
    cases control with
    | running | unwinding => rfl
    | aborted layout => exact absurd ⟨layout, rfl⟩ hm
  apply WorksOff.step (.resume e) [.settle [] (.answer a)] hstack hm
  rw [hstep]
  refine worksOff_settle ?_ rfl
  rintro ⟨layout, hlayout⟩
  cases hlayout

/-- Whatever the drop of a handle brings about that a panic waits for, the panic is the answer. -/
theorem exists_worksOff_panicked (s : State) (h : Handle) (e : Panic) (rest : List Task) :
    ∃ n, WorksOff rest (run (s, [.drop h, .resume e, .settle [] (.answer .done)]) rest) n ∧
      (n.Aborted ∨ n.control = .running ∧ n.state.answer = .panicked e) := by
  have hstack : (run (s, [.drop h, .resume e, .settle [] (.answer .done)]) rest).stack =
    [.drop h] ++ .resume e :: .settle [] (.answer .done) :: rest := rfl
  obtain ⟨n, hn⟩ := exists_worksOff hstack
  have hn' : WorksOff ([.resume e, .settle [] (.answer .done)] ++ rest) _ n := hn
  by_cases haborted : n.Aborted
  · exact ⟨n, hn'.of_aborted haborted, .inl haborted⟩
  · exact ⟨_, hn'.trans (worksOff_resume haborted (hn.stack_eq haborted)), .inr ⟨rfl, rfl⟩⟩

/-! ### Panics that wait -/

/-- A release action is to panic next, above the panic `e` and the tasks `base`. It would, but for
`e`. -/
def PanicsOnTop (e : Panic) (base : List Task) (m : Machine) : Prop :=
  m.control = .running ∧ ∃ p above, m.stack = .throw p :: above ++ .resume e :: base ∧
    isUnwinding (above ++ .resume e :: base) = true ∧ isUnwinding (above ++ base) = false

/-- What keeps a panic from being seen above it keeps everything else below from it. -/
theorem isUnwinding_of_resume (h : isUnwinding (above ++ .resume e :: base) = false) :
    isUnwinding (above ++ base) = false := by
  induction above with
  | nil => cases h
  | cons t above ih =>
    cases t with
    | resume => cases h
    | join => rfl
    | _ => exact ih h

theorem panicsAlike_of_not_panicsOnTop (h : ¬ m.PanicsOnTop e base) :
    m.PanicsAlike (.resume e :: base) base := by
  intro hcontrol p above hstack
  cases hwaits : isUnwinding (above ++ .resume e :: base) with
  | false => exact (isUnwinding_of_resume hwaits).symm
  | true =>
    by_contra hne
    exact h ⟨hcontrol, p, above, hstack, hwaits, by simpa using hne⟩

/-- Two machines are the same but for the answer of the last command and for what waits. -/
def SameButAnswer (m n : Machine) : Prop :=
  m.control = n.control ∧ m.state = { n.state with answer := m.state.answer }

/-- A handle is dropped while a panic waits that no release action would panic on top of: that is to
drop it while none waits. -/
theorem exists_worksOff_drop (s : State) (h : Handle) (e : Panic) (rest : List Task)
    (hnone : ∀ k, ComesTo (.resume e :: .settle [] (.answer .done) :: rest)
      (run (s, [.drop h, .resume e, .settle [] (.answer .done)]) rest) k →
      ¬ k.PanicsOnTop e (.settle [] (.answer .done) :: rest)) :
    ∃ n n', WorksOff rest (run (s, [.drop h, .resume e, .settle [] (.answer .done)]) rest) n ∧
      WorksOff rest (run (s, [.drop h, .settle [] (.answer .done)]) rest) n' ∧
      n.SameButAnswer n' := by
  -- what is left when nothing was told before and nothing waits below
  let z : Machine := { state := { s with trace := [] }, stack := [.drop h] }
  have halike : ∀ k, ComesTo (.resume e :: .settle [] (.answer .done) :: rest)
      (z.onto s.trace (.resume e :: .settle [] (.answer .done) :: rest)) k →
      k.PanicsAlike (.resume e :: .settle [] (.answer .done) :: rest)
        (.settle [] (.answer .done) :: rest) :=
    fun k hk => panicsAlike_of_not_panicsOnTop (hnone k hk)
  obtain ⟨k, hk, hk'⟩ := z.exists_worksOff_onto s.trace s.trace halike
  have hn : WorksOff ([.resume e, .settle [] (.answer .done)] ++ rest)
    (run (s, [.drop h, .resume e, .settle [] (.answer .done)]) rest) _ := hk
  have hn' : WorksOff ([.settle [] (.answer .done)] ++ rest)
    (run (s, [.drop h, .settle [] (.answer .done)]) rest) _ := hk'
  by_cases haborted : k.Aborted
  · exact ⟨_, _, hn.of_aborted haborted, hn'.of_aborted haborted, rfl, rfl⟩
  · have hend := hk.stack_eq (mt aborted_onto.1 haborted)
    have hend' := hk'.stack_eq (mt aborted_onto.1 haborted)
    exact ⟨_, _, hn.trans (worksOff_resume haborted hend),
      hn'.trans (worksOff_settle haborted hend'), rfl, rfl⟩

/-! ### The main result -/

/-- What becomes of the unit of the handle `h` in the slot `name` when it is projected by `f` into
the slot `target`, above the tasks `rest`, and what becomes of that of a clone. -/
structure MovesOnce (s : State) (name target : String) (h : Handle)
    (f : Pointer → Except Panic Pointer) (ty : Ty) (rest : List Task) : Prop where
  /-- The projections that commands name are such functions. -/
  project : ∀ g : Projection, g.target h.kind h.ty = some ty →
    s.begin (.project name target (some g)) =
      s.projectBy name target h (g.function s.heap) ty
  projectClone : ∀ g : Projection, g.target h.kind h.ty = some ty → target ≠ name →
    s.begin (.projectClone name target (some g)) =
      s.projectCloneBy target h (g.function s.heap) ty
  /-- If the function returns, the unit is that of the projected handle, and that is all. -/
  returns : ∀ pointer, h.pointedBy f = .ok pointer →
    (run (s.projectBy name target h f ty) rest).step =
      { state := { s with
          slots := (s.slots.erase name).put target { h with ty, pointer }, answer := .done },
        stack := rest }
  /-- If there is no pointer, that is what happens, whatever the function would do. -/
  empty : h.pointer = none →
    (run (s.projectBy name target h f ty) rest).step =
      { state := { s with
          slots := (s.slots.erase name).put target { h with ty }, answer := .done },
        stack := rest }
  /-- If the function panics, the command ends with that panic. -/
  panics : ∀ e, h.pointedBy f = .error e →
    ∃ n, WorksOff rest (run (s.projectBy name target h f ty) rest) n ∧
      (n.Aborted ∨ n.control = .running ∧ n.state.answer = .panicked e)
  /-- Unless a release action is to panic on top of it, the state is then as if the handle had been
  dropped. -/
  drops : ∀ e, h.pointedBy f = .error e →
    (∀ k, ComesTo (.resume e :: .settle [] (.answer .done) :: rest)
      (run (s.projectBy name target h f ty) rest) k →
      ¬ k.PanicsOnTop e (.settle [] (.answer .done) :: rest)) →
    ∃ n n', WorksOff rest (run (s.projectBy name target h f ty) rest) n ∧
      WorksOff rest (run (s.begin (.drop name)) rest) n' ∧ n.SameButAnswer n'
  /-- A clone that is projected brings one unit, and the handle stays as it is. -/
  cloned : ∀ pointer, h.pointedBy f = .ok pointer → s.heap.HasRoom h → target ≠ name →
    (run (s.projectCloneBy target h f ty) rest).step =
      { state := { s with
          heap := s.heap.withUnit h, slots := s.slots.put target { h with ty, pointer },
          answer := .done },
        stack := rest } ∧
      (s.slots.put target { h with ty, pointer }).get? name = some h
  /-- If the function panics, the clone is gone, and that is all. -/
  uncloned : ∀ e, h.pointedBy f = .error e → s.heap.HasRoom h →
    (run (s.projectCloneBy target h f ty) rest).steps 4 =
      { state := { s with answer := .panicked e }, stack := rest }
  /-- To project a clone and to drop the handle then is to project the handle. -/
  refines : ∀ pointer, h.pointedBy f = .ok pointer → s.heap.HasRoom h → target ≠ name →
    (run (s.projectCloneBy target h f ty) (.perform (.drop name) :: rest)).steps 4 =
      (run (s.projectBy name target h f ty) rest).step

theorem step_projectBy (s : State) (name target : String) (ty : Ty) (rest : List Task)
    (hpointed : h.pointedBy f = .ok pointer) :
    (run (s.projectBy name target h f ty) rest).step =
      { state := { s with
          slots := (s.slots.erase name).put target { h with ty, pointer }, answer := .done },
        stack := rest } := by
  rw [State.projectBy, hpointed]
  rfl

/-- A clone of a handle whose counter has room is projected as the handle is. -/
theorem projectCloneBy_of_hasRoom (hm : m.Reachable) (hg : m.state.slots.get? name = some h)
    (hroom : m.state.heap.HasRoom h) (target : String) (f : Pointer → Except Panic Pointer)
    (ty : Ty) : m.state.projectCloneBy target h f ty =
      match h.pointedBy f with
      | .ok pointer => (({ m.state with heap := m.state.heap.withUnit h } : State).put target
          { h with ty, pointer }).reply .done
      | .error e => ({ m.state with heap := m.state.heap.withUnit h },
          [.drop h, .resume e, .settle [] (.answer .done)]) := by
  have hL : (m.state.ledger m.stack).Sound := ReachableBy.sound hm
  have hclone := State.clone_of_hasRoom hL (State.mem_handles_ledger hg _) hroom
  rw [State.projectCloneBy, hclone]

theorem steps_uncloned (hm : m.Reachable) (hg : m.state.slots.get? name = some h)
    (hroom : m.state.heap.HasRoom h) (hpanics : h.pointedBy f = .error e) (target : String)
    (ty : Ty) (rest : List Task) :
    (run (m.state.projectCloneBy target h f ty) rest).steps 4 =
      { state := { m.state with answer := .panicked e }, stack := rest } := by
  have hL : (m.state.ledger m.stack).Sound := ReachableBy.sound hm
  have hback := State.giveBack_withUnit m.state.slots hL (State.mem_handles_ledger hg _)
  have hdropped : (run (m.state.projectCloneBy target h f ty) rest).step =
      { state := m.state, stack := .resume e :: .settle [] (.answer .done) :: rest } := by
    rw [projectCloneBy_of_hasRoom hm hg hroom, hpanics]
    simp only [run, List.cons_append, List.nil_append, step, advance]
    rw [hback]
    rfl
  rw [steps_succ, hdropped]
  rfl

/-- The handle that is dropped gives back the unit that its clone has brought. -/
theorem steps_cloned_drop (hm : m.Reachable) (hg : m.state.slots.get? name = some h)
    (hroom : m.state.heap.HasRoom h) (hpointed : h.pointedBy f = .ok pointer)
    (hne : target ≠ name) (ty : Ty) (rest : List Task) :
    (run (m.state.projectCloneBy target h f ty) (.perform (.drop name) :: rest)).steps 4 =
      { state := { m.state with
          slots := (m.state.slots.put target { h with ty, pointer }).erase name, answer := .done },
        stack := rest } := by
  have hL : (m.state.ledger m.stack).Sound := ReachableBy.sound hm
  have hL' : (({ m.state with answer := .done } : State).ledger m.stack).Sound := hL
  generalize hslots : m.state.slots.put target { h with ty, pointer } = slots
  have hname : slots.get? name = some h := by
    rw [← hslots, Slots.get?_put_of_ne _ _ hne.symm, hg]
  have hback := State.giveBack_withUnit (slots.erase name) hL' (State.mem_handles_ledger hg _)
  have hprojected : (run (m.state.projectCloneBy target h f ty)
      (.perform (.drop name) :: rest)).step =
      { state := { m.state with heap := m.state.heap.withUnit h, slots, answer := .done },
        stack := (.perform (.drop name) :: rest : List Task) } := by
    rw [projectCloneBy_of_hasRoom hm hg hroom, hpointed, ← hslots]
    rfl
  rw [steps_succ, hprojected, steps_succ, step_perform rfl rfl (State.begin_drop hname), steps_succ]
  simp only [run, List.cons_append, List.nil_append, step, advance, State.vacate]
  rw [hback]
  rfl

/-- Whatever handle is projected by whatever function, its unit moves once. -/
theorem movesOnce_of_reachable (hm : m.Reachable) (hg : m.state.slots.get? name = some h)
    (hv : target ≠ name → m.state.slots.get? target = none)
    (f : Pointer → Except Panic Pointer) (ty : Ty) (rest : List Task) :
    MovesOnce m.state name target h f ty rest := by
  have hdrops : ∀ e, h.pointedBy f = .error e →
      run (m.state.projectBy name target h f ty) rest =
        run (m.state.vacate name, [.drop h, .resume e, .settle [] (.answer .done)]) rest := by
    intro e hpanics
    rw [State.projectBy, hpanics]
  constructor
  case project =>
    intro g hty
    rw [State.begin_project hg hv hty]
    exact State.project_eq ..
  case projectClone =>
    intro g hty hne
    rw [State.begin_projectClone hg (hv hne) hty]
    exact State.projectClone_eq ..
  case returns =>
    intro pointer hpointed
    exact step_projectBy _ _ _ _ _ hpointed
  case empty =>
    intro hnone
    have hpointed : h.pointedBy f = .ok none := by rw [Handle.pointedBy, hnone]
    rw [step_projectBy _ _ _ _ _ hpointed, ← hnone]
  case panics =>
    intro e hpanics
    rw [hdrops e hpanics]
    exact exists_worksOff_panicked _ h e rest
  case drops =>
    intro e hpanics hcalm
    rw [hdrops e hpanics] at hcalm ⊢
    rw [State.begin_drop hg]
    exact exists_worksOff_drop _ h e rest hcalm
  case cloned =>
    intro pointer hpointed hroom hne
    refine ⟨?_, ?_⟩
    · rw [projectCloneBy_of_hasRoom hm hg hroom, hpointed]
      rfl
    · rw [Slots.get?_put_of_ne _ _ hne.symm, hg]
  case uncloned =>
    intro e hpanics hroom
    exact steps_uncloned hm hg hroom hpanics target ty rest
  case refines =>
    intro pointer hpointed hroom hne
    rw [steps_cloned_drop hm hg hroom hpointed hne, step_projectBy _ _ _ _ _ hpointed,
      Slots.erase_put_of_ne _ _ hne]

/-- The only owner of a record is to be projected, and an observer looks on. -/
def unprojected : Machine :=
  performAll {} [.create "owner" .record ⟨.record { x := 8 }, rfl⟩ .abort false,
    .downgrade "owner" "observer"]

/-- A function that panics releases the record, just as a drop of the owner does; the observer keeps
the block. -/
theorem movesOnce_unprojected : unprojected.Reachable ∧ ∃ h n n',
    MovesOnce unprojected.state "owner" "owner" h (fun _ => .error .projection) .int [] ∧
    WorksOff [] (run (unprojected.state.projectBy "owner" "owner" h
      (fun _ => .error .projection) .int) []) n ∧
    WorksOff [] (run (unprojected.state.begin (.drop "owner")) []) n' ∧ n.SameButAnswer n' ∧
    (unprojected.state.perform (.project "owner" "owner" (some .panic))).state.answer =
      .panicked .projection ∧
    (unprojected.state.perform (.project "owner" "owner" (some .panic))).state.heap.counters =
      [(1, ⟨0, 1⟩)] := by
  have hreachable : unprojected.Reachable :=
    reachableBy_performAll .refl (Command.allIn_of_forall (fun _ => trivial) _)
  let h : Handle := ⟨.strong, .record, some ⟨.resource 1, .whole⟩, some 1⟩
  have hg : unprojected.state.slots.get? "owner" = some h := rfl
  have hmoves := movesOnce_of_reachable hreachable hg (fun hne => absurd rfl hne)
    (fun _ => .error .projection) .int []
  -- the owner, its record and the weak unit of the owners go in turn, and nothing panics
  have hcalm : ∀ k, ComesTo [.resume .projection, .settle [] (.answer .done)]
      (run (unprojected.state.projectBy "owner" "owner" h (fun _ => .error .projection) .int) [])
      k → ¬ k.PanicsOnTop .projection [.settle [] (.answer .done)] := by
    rintro k hk ⟨-, p, above, hstack, -⟩
    rcases hk with _ | ⟨_, _, _, _, hk⟩
    · cases hstack
    rcases hk with _ | ⟨_, _, _, _, hk⟩
    · cases hstack
    rcases hk with _ | ⟨_, _, _, _, hk⟩
    · cases hstack
    rcases hk with _ | ⟨_, _, hbase, _, _⟩
    · cases hstack
    · have hlength : 2 = _ := congrArg List.length hbase
      simp at hlength
  obtain ⟨n, n', hn, hn', hsame⟩ := hmoves.drops .projection rfl hcalm
  exact ⟨hreachable, h, n, n', hmoves, hn, hn', hsame, rfl, rfl⟩

end Machine

end SharedOwnership
