import SharedOwnership.Proofs.Teardown.Untouched
import SharedOwnership.Proofs.Termination

/-!
# What was told before, and what waits, makes no difference

A step adds to the trace and does not read it, and it does not read the tasks that wait either, but
for the panic that may be among them. So two machines that differ there only go on in the same way
until the tasks above those that wait are worked off.

## Main definitions

* `State.onto`, `Machine.onto` — a state with an earlier trace, a machine above tasks that wait.
* `Machine.ComesTo` — what a run passes through while tasks wait.

## Main results

* `Machine.exists_step_onto` — one step of two such machines.
* `Machine.exists_worksOff_onto` — their runs.
-/

namespace SharedOwnership

namespace State

/-- The state after more was told before. -/
def onto (s : State) (past : List Event) : State := { s with trace := s.trace ++ past }

/-- A state and the tasks that remain, after more was told before. -/
def ontoNext (past : List Event) (next : State × List Task) : State × List Task :=
  (next.1.onto past, next.2)

variable {s : State} {past : List Event}

theorem start_onto (s : State) (past : List Event) (action : ReleaseAction)
    (resource : Option Nat) :
    (s.onto past).start action resource = ontoNext past (s.start action resource) := by
  cases action <;> rfl

theorem giveBackWeak_onto (s : State) (past : List Event) (l : Nat) :
    (s.onto past).giveBackWeak l = (s.giveBackWeak l).onto past := by
  have hheap : (s.onto past).heap = s.heap := rfl
  rw [giveBackWeak, giveBackWeak]
  rw [hheap]
  split
  · rfl
  · split <;> rfl

theorem giveBackStrong_onto (s : State) (past : List Event) (l : Nat) :
    (s.onto past).giveBackStrong l = ontoNext past (s.giveBackStrong l) := by
  have hheap : (s.onto past).heap = s.heap := rfl
  rw [giveBackStrong, giveBackStrong]
  rw [hheap]
  split
  · rfl
  · next b _ =>
    simp only
    split
    · split
      · rfl
      · next action _ => cases action <;> rfl
    · rfl

theorem giveBack_onto (s : State) (past : List Event) (h : Handle) :
    (s.onto past).giveBack h = ontoNext past (s.giveBack h) := by
  rw [giveBack, giveBack]
  split
  · rfl
  · split
    · exact giveBackStrong_onto ..
    · rw [giveBackWeak_onto]
      rfl

theorem destroy_onto (s : State) (past : List Event) (r : Nat) :
    (s.onto past).destroy r = ontoNext past (s.destroy r) := by
  have hheap : (s.onto past).heap = s.heap := rfl
  rw [destroy, destroy]
  rw [hheap]
  cases s.heap.resources.get? r with
  | none => rfl
  | some x =>
    simp only
    cases dropped x.content <;> rfl

/-! ### Commands -/

theorem check_onto (s : State) (past : List Event) (guards : List Guard) :
    (s.onto past).check guards = s.check guards := by
  induction guards with
  | nil => rfl
  | cons g guards ih => cases g <;> simp only [check, ih] <;> rfl

theorem takeAll_onto (s : State) (past : List Event) (names : List String) :
    (s.onto past).takeAll names = ((s.takeAll names).1.onto past, (s.takeAll names).2) := by
  induction names generalizing s with
  | nil => rfl
  | cons name names ih =>
    have hhandle : (s.onto past).handle name = s.handle name := rfl
    have hvacate : (s.onto past).vacate name = (s.vacate name).onto past := rfl
    rw [takeAll, takeAll]
    rw [hhandle, hvacate, ih]
    cases s.handle name <;> rfl

theorem adoption_onto (s : State) (past : List Event) (ty : Ty) (content : Option (Content.Of ty))
    (carried : Layout) (action : ReleaseAction) (fails : Bool) :
    (s.onto past).adoption ty content carried action fails =
      ((s.adoption ty content carried action fails).1.onto past,
        (s.adoption ty content carried action fails).2) := by
  cases fails with
  | true => cases action <;> rfl
  | false => rfl

theorem adoptInto_onto (s : State) (past : List Event) (slot : String) (ty : Ty)
    (content : Option (Content.Of ty)) (carried : Layout) (action : ReleaseAction)
    (onFailure : OnFailure) (fails : Bool) :
    (s.onto past).adoptInto slot ty content carried action onFailure fails =
      ontoNext past (s.adoptInto slot ty content carried action onFailure fails) := by
  rw [adoptInto, adoptInto]
  rw [adoption_onto]
  rcases s.adoption ty content carried action fails with ⟨s', ⟨layout, tasks⟩ | h⟩ <;> rfl

theorem replace_onto (s : State) (past : List Event) (slot : String) (h : Handle)
    (content : Option (Content.Of h.ty)) (terms : Terms) (script : List Command) :
    (s.onto past).replace slot h content terms script =
      ontoNext past (s.replace slot h content terms script) := by
  have hnumber : (s.onto past).number = (s.number.1.onto past, s.number.2) := rfl
  rw [replace, replace]
  rw [hnumber]
  simp only
  rw [adoption_onto]
  rcases s.number.1.adoption h.ty content terms.carried
    (.scripted s.number.2 h.ty script terms.panics) terms.fails with ⟨s', ⟨layout, tasks⟩ | h⟩ <;>
    rfl

/-- A command does not see what was told before. -/
theorem plan_onto (s : State) (past : List Event) (c : Command) :
    (s.onto past).plan c = (s.plan c).map (ontoNext past) := by
  have hheap : (s.onto past).heap = s.heap := rfl
  cases c with
  | malformed guards reason =>
    simp only [plan, check_onto]
    cases s.check guards <;> rfl
  | create target ty content onFailure fails =>
    refine bind_eq_map_bind fun _ _ => ?_
    exact congrArg Except.ok (adoptInto_onto s past target ty _ .none .discard onFailure fails)
  | adopt target ty content onFailure terms script =>
    refine bind_eq_map_bind fun _ _ => ?_
    exact congrArg Except.ok (adoptInto_onto s.number.1 past target ty _ _ _ onFailure _)
  | empty target kind ty => exact bind_eq_map_bind fun _ _ => rfl
  | clone name target =>
    refine bind_eq_map_bind fun _ _ => bind_eq_map_bind fun h _ => ?_
    rw [hheap]
    rcases s.heap.clone h with ⟨heap, e | copy⟩ <;> rfl
  | take name target => exact bind_eq_map_bind fun _ _ => bind_eq_map_bind fun _ _ => rfl
  | downgrade name target =>
    refine bind_eq_map_bind fun _ _ => bind_eq_map_bind fun h _ => bind_eq_map_bind fun _ _ => ?_
    rw [hheap]
    rcases s.heap.downgrade h with ⟨heap, e | copy⟩ <;> rfl
  | lock name target =>
    refine bind_eq_map_bind fun _ _ => bind_eq_map_bind fun h _ => bind_eq_map_bind fun _ _ => ?_
    rw [hheap]
    rcases s.heap.lock h with ⟨heap, e | copy⟩ <;> rfl
  | drop name | dropOnThread name | reset name => exact bind_eq_map_bind fun _ _ => rfl
  | replace name value terms script =>
    refine bind_eq_map_bind fun h _ => bind_eq_map_bind fun _ _ => ?_
    cases value
    all_goals
      refine bind_eq_map_bind fun content _ => ?_
      exact congrArg Except.ok (replace_onto s past name h content terms script)
  | swap name other => exact bind_eq_map_bind (x := s.pair name other) fun _ _ => rfl
  | assign name source =>
    refine bind_eq_map_bind (x := s.pair name source) fun pair _ => ?_
    simp only [hheap]
    rcases s.heap.clone pair.2 with ⟨heap, e | new⟩ <;> rfl
  | sameAddress name other =>
    refine bind_eq_map_bind fun h _ => bind_eq_map_bind fun g _ => ?_
    split
    · rfl
    · exact bind_eq_map_bind fun _ _ => rfl
  | sameOwner name other =>
    refine bind_eq_map_bind fun h _ => bind_eq_map_bind fun g _ => ?_
    split
    · rfl
    · exact bind_eq_map_bind fun _ _ => rfl
  | read name access =>
    refine bind_eq_map_bind fun h _ => bind_eq_map_bind fun _ _ => ?_
    rw [hheap]
    cases access <;> cases s.heap.read h <;> rfl
  | inspect name => exact bind_eq_map_bind fun _ _ => rfl
  | debug name style => exact bind_eq_map_bind fun h _ => by cases style <;> rfl
  | showPointer name style =>
    exact bind_eq_map_bind fun h _ => bind_eq_map_bind fun _ _ => by cases style <;> rfl
  | project name target f =>
    simp only [plan]
    split
    on_goal 1 => refine bind_eq_map_bind fun _ _ => ?_
    all_goals
      refine bind_eq_map_bind fun h _ => ?_
      cases f.bind fun f => (f.target h.kind h.ty).map (f, ·) with
      | none => rfl
      | some fty =>
        simp only [project, hheap]
        cases s.heap.pointed h fty.1 <;> rfl
  | projectClone name target f =>
    refine bind_eq_map_bind fun _ _ => bind_eq_map_bind fun h _ => ?_
    cases f.bind fun f => (f.target h.kind h.ty).map (f, ·) with
    | none => rfl
    | some fty =>
      simp only [projectClone, hheap]
      rcases s.heap.clone h with ⟨heap, e | copy⟩
      · rfl
      · simp only
        cases heap.pointed copy fty.1 <;> rfl
  | link name child =>
    refine bind_eq_map_bind fun g _ => ?_
    exact bind_eq_map_bind fun h _ => bind_eq_map_bind fun node _ => rfl
  | unlink name target index =>
    refine bind_eq_map_bind fun _ _ => bind_eq_map_bind fun h _ => bind_eq_map_bind fun node _ => ?_
    rw [hheap]
    cases (s.heap.resources.get? node).bind fun r => r.links[index]? <;> rfl
  | churn name threads rounds => exact bind_eq_map_bind fun h _ => rfl
  | raceDrop names =>
    simp only [plan, takeAll_onto]
    rcases s.takeAll names with ⟨s', hs, _ | reason⟩ <;> rfl
  | raceLock name observer =>
    refine bind_eq_map_bind fun h _ => bind_eq_map_bind fun _ _ => ?_
    have hobserver : ((s.onto past).vacate name).handle observer =
        (s.vacate name).handle observer := rfl
    simp only [hobserver]
    cases (s.vacate name).handle observer with
    | error reason => rfl
    | ok w =>
      simp only
      cases requireWeak w <;> rfl
  | leak block side n | unleak block side n =>
    simp only [plan, setBlock, hheap]
    cases s.heap.blocks.get? block with
    | none => rfl
    | some b =>
      simp only
      split <;> rfl
  | slots => rfl

theorem begin_onto (s : State) (past : List Event) (c : Command) :
    (s.onto past).begin c = ontoNext past (s.begin c) := by
  rw [begin, begin]
  rw [plan_onto]
  cases s.plan c <;> rfl

end State

namespace Machine

/-- The machine after more was told before, above tasks that wait. -/
def onto (m : Machine) (past : List Event) (base : List Task) : Machine :=
  { state := m.state.onto past, control := m.control, stack := m.stack ++ base }

variable {m : Machine} {past past' : List Event} {base base' : List Task}

theorem aborted_onto : (m.onto past base).Aborted ↔ m.Aborted := Iff.rfl

/-- The tasks that wait matter to a step only because a panic may be among them. -/
theorem isUnwinding_append (h : isUnwinding base = isUnwinding base') (ts : List Task) :
    isUnwinding (ts ++ base) = isUnwinding (ts ++ base') := by
  induction ts with
  | nil => exact h
  | cons t ts ih => cases t <;> simp only [List.cons_append, isUnwinding, ih]

theorem advance_settle_onto (s : State) (puts : List (String × Handle)) (pending : Pending)
    (rest : List Task) : advance (s.onto past) (.settle puts pending) (rest ++ base) =
      (advance s (.settle puts pending) rest).onto past base := by
  cases pending with
  | answer a =>
    rcases puts with _ | ⟨⟨slot, h⟩, puts⟩
    · rfl
    · simp only [advance, settle, onto, List.append_assoc, List.cons_append]
      rfl
  | failed layout onFailure => cases onFailure <;> rfl
  | observed =>
    have hheap : (s.onto past).heap = s.heap := rfl
    simp only [advance, resolve, hheap]
    split
    · rfl
    · next slot w puts => rcases s.heap.lock w with ⟨heap, e | owner⟩ <;> rfl

/-- `m` comes to `n` while it works off what lies above the tasks `base`. -/
inductive ComesTo (base : List Task) : Machine → Machine → Prop
  | refl (m : Machine) : ComesTo base m m
  | step {m n : Machine} (t : Task) (above : List Task) (hstack : m.stack = t :: above ++ base)
      (hm : ¬ m.Aborted) (h : ComesTo base m.step n) : ComesTo base m n

/-- A release action that is to panic finds a panic below `base` as it would find one below
`base'`. -/
def PanicsAlike (base base' : List Task) (m : Machine) : Prop :=
  m.control = .running → ∀ p above, m.stack = .throw p :: above ++ base →
    isUnwinding (above ++ base) = isUnwinding (above ++ base')

theorem panicsAlike (h : isUnwinding base = isUnwinding base') (m : Machine) :
    m.PanicsAlike base base' := by
  intro _ p above _
  exact isUnwinding_append h above

/-- Whatever was told before and waits below, a step does the same. -/
theorem exists_step_onto (hstack : m.stack ≠ []) (past past' : List Event)
    (halike : (m.onto past base).PanicsAlike base base') :
    ∃ n : Machine, (m.onto past base).step = n.onto past base ∧
      (m.onto past' base').step = n.onto past' base' := by
  obtain ⟨s, control, _ | ⟨t, rest⟩⟩ := m
  · exact absurd rfl hstack
  cases control with
  | aborted layout => exact ⟨_, rfl, rfl⟩
  | running =>
    by_cases hthrow : ∃ p, t = .throw p
    · obtain ⟨p, rfl⟩ := hthrow
      refine ⟨⟨s, if isUnwinding (rest ++ base) then .running else .unwinding p, rest⟩, rfl, ?_⟩
      rw [halike rfl p rest rfl]
      rfl
    · refine ⟨advance s t rest, ?_⟩
      suffices h : ∀ past base, advance (s.onto past) t (rest ++ base) =
          (advance s t rest).onto past base from ⟨h past base, h past' base'⟩
      intro past base
      cases t with
      | throw p => exact absurd ⟨p, rfl⟩ hthrow
      | perform c =>
        simp only [advance, State.begin_onto, run, onto, State.ontoNext, List.append_assoc]
      | drop h =>
        simp only [advance, State.giveBack_onto, run, onto, State.ontoNext, List.append_assoc]
      | destroy r =>
        simp only [advance, State.destroy_onto, run, onto, State.ontoNext, List.append_assoc]
      | finish l =>
        simp only [advance, State.giveBackWeak_onto]
        rfl
      | report | resume | join => rfl
      | spawn handles => cases handles <;> rfl
      | settle puts pending => exact advance_settle_onto s puts pending rest
  | unwinding e =>
    refine ⟨unwind s e t rest, ?_⟩
    suffices h : ∀ past base, unwind (s.onto past) e t (rest ++ base) =
        (unwind s e t rest).onto past base from ⟨h past base, h past' base'⟩
    intro past base
    cases t with
    | drop h =>
      simp only [unwind, State.giveBack_onto, run, onto, State.ontoNext, List.append_assoc]
      rfl
    | perform | report | finish | destroy | throw | resume | join | settle => rfl
    | spawn handles => cases handles <;> rfl

/-- Whatever was told before and waits below, a run does the same until what lies above is worked
off. -/
theorem exists_worksOff_onto (m : Machine) (past past' : List Event)
    (halike : ∀ k, ComesTo base (m.onto past base) k → k.PanicsAlike base base') :
    ∃ n : Machine, WorksOff base (m.onto past base) (n.onto past base) ∧
      WorksOff base' (m.onto past' base') (n.onto past' base') := by
  induction hk : (m.onto past base).weight using Nat.strongRecOn generalizing m with
  | _ weight ih =>
    subst hk
    by_cases haborted : m.Aborted
    · exact ⟨m, .aborted m.stack rfl haborted, .aborted m.stack rfl haborted⟩
    · rcases hstack : m.stack with _ | ⟨t, above⟩
      · have hbottom : ∀ past base, (m.onto past base).stack = base := by
          intro past base
          rw [onto, hstack, List.nil_append]
        exact ⟨m, .done (hbottom ..) haborted, .done (hbottom ..) haborted⟩
      · have htop : ∀ past base, (m.onto past base).stack = t :: above ++ base := by
          intro past base
          rw [onto, hstack]
        have hne : m.stack ≠ [] := by simp [hstack]
        obtain ⟨k, hk, hk'⟩ := exists_step_onto hne past past' (halike _ (.refl _))
        have hlt := weight_step_lt (halted_eq_false (htop past base) haborted)
        rw [hk] at hlt
        have hafter : ∀ j, ComesTo base (k.onto past base) j → j.PanicsAlike base base' := by
          intro j hj
          exact halike j (.step t above (htop past base) haborted (hk ▸ hj))
        obtain ⟨n, hn, hn'⟩ := ih _ hlt k hafter rfl
        exact ⟨n, .step t above (htop ..) haborted (hk ▸ hn),
          .step t above (htop ..) haborted (hk' ▸ hn')⟩

end Machine

end SharedOwnership
