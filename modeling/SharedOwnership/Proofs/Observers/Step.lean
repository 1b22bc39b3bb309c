import SharedOwnership.Proofs.Observers.Perform
import SharedOwnership.Proofs.Termination

/-!
# Steps without observers

A machine pauses before each command, after each command, and when it has nothing left to do. In
between it may drop observers, which a machine without observers does not, and it may take more
steps for that. But when both of them pause, the second one is again what is left of the first.

## Main definitions

* `Machine.paused`, `Machine.Passes`, `Machine.Pauses` — the steps up to the next pause.
* `Machine.Alike` — whether a machine is what is left of another one without observers.

## Main results

* `Machine.exists_pauses` — a machine comes to its next pause.
* `Machine.exists_worksOff_quiet` — tasks without an owner leave what is left as it is.
* `Machine.Alike.exists_pauses` — machines that are alike are alike when they pause next.
-/

namespace SharedOwnership

/-! ### Ends of release actions -/

theorem endings_append (ts rest : List Task) :
    endings (ts ++ rest) = endings ts + endings rest := by
  rw [endings, endings, endings, List.flatMap_append, ← Multiset.coe_add]

theorem endings_eq_zero {ts : List Task} (h : ∀ t ∈ ts, t.finishing = []) : endings ts = 0 := by
  rw [endings, List.flatMap_eq_nil_iff.2 h]
  rfl

theorem Task.IsQuiet.finishing {s' : State} {t : Task} (h : t.IsQuiet s') : t.finishing = [] := by
  cases t with
  | finish => cases h
  | _ => rfl

namespace Machine

variable {m n e k : Machine} {t : Task} {rest : List Task}

/-! ### Pauses -/

/-- Whether the next task is a command or the end of one, or nothing is left to do. -/
def paused (m : Machine) : Bool :=
  match m.control, m.stack with
  | .aborted _, _ => true
  | _, [] => true
  | .running, .perform _ :: _ | .running, .report :: _ => true
  | _, _ => false

/-- Some steps lead from `m` to `n` without a pause before the last of them. -/
def Passes (m n : Machine) : Prop :=
  Relation.ReflTransGen (fun m n => m.paused = false ∧ n = m.step) m n

/-- The machine `m` pauses next when it is `n`. -/
def Pauses (m n : Machine) : Prop := Passes m n ∧ n.paused

theorem Passes.step (hm : m.paused = false) (h : Passes m.step n) : Passes m n :=
  Relation.ReflTransGen.head ⟨hm, rfl⟩ h

theorem Passes.trans (h : Passes m n) (h' : Passes n k) : Passes m k :=
  Relation.ReflTransGen.trans h h'

theorem Passes.leads (h : Passes m n) : Leads (fun _ => True) m n := by
  induction h with
  | refl => exact .refl
  | tail _ hstep ih =>
    rw [hstep.2]
    exact ih.tail .step

theorem Passes.step_step (h : Passes m n) (hn : n.paused = false) : Passes m.step n.step := by
  rcases Relation.ReflTransGen.cases_head h with rfl | ⟨_, ⟨-, rfl⟩, hrest⟩
  · exact .refl
  · exact hrest.tail ⟨hn, rfl⟩

theorem Passes.weight_le (h : Passes m n) : n.weight ≤ m.weight := by
  induction h with
  | refl => exact Nat.le_refl _
  | tail _ hstep ih =>
    rw [hstep.2]
    exact (weight_step_le _).trans ih

theorem Pauses.of_paused (hm : m.paused) : Pauses m m := ⟨.refl, hm⟩

theorem Pauses.of_passes (h : Passes m n) (h' : Pauses n k) : Pauses m k := ⟨h.trans h'.1, h'.2⟩

/-- A machine has one next pause. -/
theorem Pauses.unique (h : Pauses m n) (h' : Pauses m k) : n = k := by
  obtain ⟨hpasses, hn⟩ := h
  obtain ⟨hpasses', hk⟩ := h'
  induction hpasses using Relation.ReflTransGen.head_induction_on with
  | refl =>
    rcases Relation.ReflTransGen.cases_head hpasses' with rfl | ⟨_, ⟨hm, -⟩, -⟩
    · rfl
    · exact absurd hn (by simp [hm])
  | head hstep _ ih =>
    obtain ⟨hm, rfl⟩ := hstep
    rcases Relation.ReflTransGen.cases_head hpasses' with rfl | ⟨_, ⟨-, rfl⟩, hrest⟩
    · exact absurd hk (by simp [hm])
    · exact ih hrest

theorem Pauses.eq_of_paused (h : Pauses m n) (hm : m.paused) : n = m := h.unique (.of_paused hm)

theorem halted_of_not_paused (hm : m.paused = false) : m.halted = false := by
  obtain ⟨s, control, stack⟩ := m
  cases control <;> cases stack <;> simp_all [paused, halted]

/-- A machine comes to its next pause. -/
theorem exists_pauses (m : Machine) : ∃ n, Pauses m n := by
  induction m using wellFounded_follows.induction with
  | _ m ih =>
    cases hm : m.paused with
    | true => exact ⟨m, .of_paused hm⟩
    | false =>
      obtain ⟨n, hn⟩ := ih m.step ⟨halted_of_not_paused hm, rfl⟩
      exact ⟨n, hn.1.step hm, hn.2⟩

/-! ### Quiet tasks -/

/-- The tasks of a command of which nothing remains lie above `rest`. -/
structure QuietAbove (s' : State) (rest ts : List Task) (m : Machine) : Prop where
  stack : m.stack = ts ++ rest
  state : m.state.Bares (endings rest) s'
  quiet : ∀ t ∈ ts, t.IsQuiet s'
  last : ∀ t ∈ ts.getLast?, t.catches
  control : m.control = .running ∨ (∃ p, m.control = .unwinding p) ∧ ts ≠ []

variable {s s' : State} {ts above : List Task}

theorem catches_tail (h : ∀ u ∈ (t :: ts).getLast?, u.catches) : ∀ u ∈ ts.getLast?, u.catches := by
  cases ts with
  | nil => simp
  | cons t' ts => rwa [List.getLast?_cons_cons] at h

theorem catches_append (hts : ts ≠ []) (h : ∀ u ∈ ts.getLast?, u.catches) :
    ∀ u ∈ (above ++ ts).getLast?, u.catches := by
  rwa [List.getLast?_append_of_ne_nil _ hts]

theorem catches_cons (ht : t.catches) (h : ∀ u ∈ ts.getLast?, u.catches) :
    ∀ u ∈ (t :: ts).getLast?, u.catches := by
  cases ts with
  | nil => simp [ht]
  | cons t' ts => rwa [List.getLast?_cons_cons]

/-- The last task is another one if the first one catches no panic. -/
theorem ne_nil_of_catches (h : ∀ u ∈ (t :: ts).getLast?, u.catches) (ht : t.catches = false) :
    ts ≠ [] := by
  rintro rfl
  exact absurd (h t rfl) (by simp [ht])

/-- Tasks without an owner bring about other such tasks, if any. -/
theorem QuietAbove.step (hL : m.ledger.Sound) (h : QuietAbove s' rest (t :: ts) m) :
    m.paused = false ∧ ∃ ts', QuietAbove s' rest ts' m.step := by
  obtain ⟨s, control, stack⟩ := m
  obtain ⟨hstack, hs, hquiet, hlast, hcontrol⟩ := h
  obtain rfl : stack = t :: (ts ++ rest) := hstack
  have ht := hquiet t List.mem_cons_self
  have hts : ∀ t' ∈ ts, t'.IsQuiet s' := fun t' ht' => hquiet t' (.tail t ht')
  have hendings : endings (ts ++ rest) = endings rest := by
    rw [endings_append, endings_eq_zero fun t' ht' => (hts t' ht').finishing, zero_add]
  have htail := catches_tail hlast
  -- other tasks may take the place of one that catches no panic, or a panic goes on from there
  have hrun : ∀ s₂ above, s₂.Bares (endings rest) s' → (∀ u ∈ above, u.IsQuiet s') →
      t.catches = false → QuietAbove s' rest (above ++ ts) ⟨s₂, .running, above ++ (ts ++ rest)⟩ :=
    fun s₂ above hs₂ habove ht => ⟨(List.append_assoc ..).symm, hs₂,
      List.forall_mem_append.2 ⟨habove, hts⟩, catches_append (ne_nil_of_catches hlast ht) htail,
      .inl rfl⟩
  have hunwind : ∀ q, t.catches = false →
      QuietAbove s' rest ts ⟨s, .unwinding q, ts ++ rest⟩ :=
    fun q ht => ⟨rfl, hs, hts, htail, .inr ⟨⟨q, rfl⟩, ne_nil_of_catches hlast ht⟩⟩
  cases control with
  | aborted layout => rcases hcontrol with hno | ⟨⟨q, hno⟩, -⟩ <;> cases hno
  | running =>
    cases t with
    | perform | report | finish | destroy | throw => cases ht
    | drop h =>
      obtain ⟨hback, htasks⟩ := State.Bares.giveBackObserver (hendings ▸ hs) hL ht
      refine ⟨rfl, _, hrun _ (s.giveBack h).2 (hendings ▸ hback) ?_ rfl⟩
      simp [htasks]
    | spawn hs' =>
      cases hs' with
      | nil => exact ⟨rfl, _, hrun s [] hs (by simp) rfl⟩
      | cons h hs' =>
        have hall := List.forall_mem_cons.1 ht
        exact ⟨rfl, _, hrun s [.drop h, .join, .spawn hs'] hs
          (by simpa [Task.IsQuiet] using hall) rfl⟩
    | join => exact ⟨rfl, _, hrun s [] hs (by simp) rfl⟩
    | resume q => exact ⟨rfl, _, hunwind q rfl⟩
    | settle puts pending =>
      cases pending with
      | failed | observed => cases ht
      | answer a =>
        cases puts with
        | nil => exact ⟨rfl, ts, rfl, ⟨hs.heap, hs.slots, hs.numbered, hs.lastFailure, hs.trace⟩,
            hts, htail, .inl rfl⟩
        | cons put puts =>
          obtain ⟨slot, h⟩ := put
          obtain ⟨⟨hh, hv⟩, hputs⟩ := List.forall_mem_cons.1 ht
          refine ⟨rfl, (s.slots.get? slot).toList.map .drop ++ .settle puts (.answer a) :: ts, ?_,
            hs.putObserver hv hh, ?_, ?_, .inl rfl⟩
          · simp [Machine.step, advance, settle]
          · refine List.forall_mem_append.2 ⟨?_, List.forall_mem_cons.2 ⟨hputs, hts⟩⟩
            have hslot := hs.slots slot
            rw [hv] at hslot
            cases hg : s.slots.get? slot with
            | none => simp
            | some g =>
              rw [hg] at hslot
              have hg' : g.isOwner = false := by simpa using hslot.symm
              simpa [Task.IsQuiet] using hg'
          · exact catches_append (List.cons_ne_nil _ _) (catches_cons rfl htail)
  | unwinding q =>
    cases t with
    | perform | report | finish | destroy | throw => cases ht
    | drop h =>
      have hs₂ : s.Bares (endings (.resume q :: (ts ++ rest))) s' := by
        have hresume : endings (.resume q :: (ts ++ rest)) = endings (ts ++ rest) := rfl
        rw [hresume, hendings]
        exact hs
      obtain ⟨hback, htasks⟩ := hs₂.giveBackObserver hL ht
      have hstep : Machine.step ⟨s, .unwinding q, .drop h :: (ts ++ rest)⟩ =
          ⟨(s.giveBack h).1, .running, [.resume q] ++ (ts ++ rest)⟩ := by
        simp [Machine.step, unwind, run, htasks]
      rw [hstep]
      exact ⟨rfl, _, hrun _ [.resume q] (hendings ▸ hback) (by simp [Task.IsQuiet]) rfl⟩
    | spawn hs' =>
      cases hs' with
      | nil => exact ⟨rfl, _, hunwind q rfl⟩
      | cons h hs' =>
        have hall := List.forall_mem_cons.1 ht
        exact ⟨rfl, _, hrun s [.drop h, .join, .spawn hs', .resume q] hs
          (by simpa [Task.IsQuiet] using hall) rfl⟩
    | join => exact ⟨rfl, _, hunwind q rfl⟩
    | resume q' => exact ⟨rfl, _, hunwind q' rfl⟩
    | settle puts pending =>
      cases pending with
      | failed | observed => cases ht
      | answer a =>
        exact ⟨rfl, .settle puts (.answer (.panicked q)) :: ts, rfl, hs,
          List.forall_mem_cons.2 ⟨ht, hts⟩, catches_cons rfl htail, .inl rfl⟩

/-- The machine `e` is what is left of the machine `m` without observers. -/
structure Alike (m e : Machine) : Prop where
  control : e.control = m.control
  tasks : Tasks.Bares m.stack e.stack
  state : m.state.Bares (endings m.stack) e.state

/-- Both machines pause. -/
theorem Alike.paused (h : Alike m e) (hm : m.paused) : e.paused := by
  obtain ⟨s, control, stack⟩ := m
  obtain ⟨s', control', stack'⟩ := e
  obtain ⟨hcontrol, htasks, -⟩ := h
  obtain rfl : control' = control := hcontrol
  cases htasks with
  | nil => cases control' <;> rfl
  | drop => cases control' <;> simp_all [Machine.paused]
  | @cons t _ _ _ ht _ =>
    cases ht with
    | same => cases t <;> cases control' <;> simp_all [Machine.paused]
    | spawn | settle => cases control' <;> simp_all [Machine.paused]

section running

variable {us : List Task}

/-- The tasks of a teardown work on no handle of their own. -/
theorem isBare_of_mem_giveBack {h : Handle} (ht : t ∈ (s.giveBack h).2) : t.isBare := by
  rw [State.giveBack] at ht
  split at ht
  · cases ht
  · split at ht
    · rw [State.giveBackStrong] at ht
      split at ht
      · cases ht
      · split at ht
        · split at ht
          · obtain rfl := List.mem_singleton.1 ht
            rfl
          · rcases List.mem_append.1 ht with ht | ht
            · exact ReleaseAction.isBare_of_mem_tasks ht
            · obtain rfl := List.mem_singleton.1 ht
              rfl
        · cases ht
    · cases ht

theorem endings_destroy (s : State) (r : Nat) (ts : List Task) :
    endings ((s.destroy r).2 ++ ts) = endings ts := by
  rw [endings_append, endings_eq_zero, zero_add]
  intro t ht
  rw [State.destroy] at ht
  split at ht
  · cases ht
  · obtain ⟨h, -, rfl⟩ := List.mem_map.1 ht
    rfl

/-- Owners go back to their slots. What they displace is dropped, if it is an owner. -/
theorem alike_settle (hs : s.Bares (endings ts) s') (hrest : Tasks.Bares ts us)
    {puts : List (String × Handle)} (hputs : puts.all fun put => put.2.isOwner) (a a' : Answer) :
    Alike (settle s puts a ts) (settle s' puts a' us) := by
  cases puts with
  | nil => exact ⟨rfl, hrest, hs.answer a a'⟩
  | cons put puts =>
    obtain ⟨slot, h⟩ := put
    simp only [List.all_cons, Bool.and_eq_true] at hputs
    have hslot := hs.slots slot
    have hdisplaced : Tasks.Bares ((s.slots.get? slot).toList.map .drop)
        ((s'.slots.get? slot).toList.map .drop) := by
      have hlist : (s'.slots.get? slot).toList =
          (s.slots.get? slot).toList.filter Handle.isOwner := by
        rw [hslot]
        cases s.slots.get? slot with
        | none => rfl
        | some g => cases hg : g.isOwner <;> simp [hg]
      rw [hlist]
      exact .map_drop _
    refine ⟨rfl, hdisplaced.append (.cons (.settle puts a a' hputs.2) hrest), ?_⟩
    have hendings : endings ((s.slots.get? slot).toList.map .drop ++
        .settle puts (.answer a) :: ts) = endings ts := by
      rw [endings_append, endings_eq_zero (by simp [Task.finishing]), zero_add]
      rfl
    rw [Machine.settle, hendings]
    exact hs.put slot hputs.1

/-- A task that works on no observer is the same for what is left. -/
theorem alike_advance (hL : (s.ledger (t :: ts)).Sound) (hs : s.Bares (endings (t :: ts)) s')
    (ht : t.isBare) (hrest : Tasks.Bares ts us) (hc : ∀ c, t ≠ .perform c) :
    Alike (advance s t ts) (advance s' t us) := by
  cases t with
  | perform c => exact absurd rfl (hc c)
  | report =>
    exact ⟨rfl, hrest, (hs.trace_left [.performed s.answer] rfl).trace_right
      [.performed s'.answer] rfl⟩
  | drop h =>
    have hs₂ : s.Bares (endings ts) s' := hs
    obtain ⟨hback, htasks⟩ := hs₂.giveBackOwner hL ht
    refine ⟨rfl, ?_, hback⟩
    have hbare : Tasks.Bares (s.giveBack h).2 (s.giveBack h).2 :=
      .of_forall fun t ht => isBare_of_mem_giveBack ht
    simp only [advance, run, htasks]
    exact hbare.append hrest
  | finish l => exact ⟨rfl, hrest, hs.finish hL⟩
  | destroy r =>
    obtain ⟨hstate, htasks⟩ := hs.destroy r
    refine ⟨rfl, htasks.append hrest, ?_⟩
    have hendings := endings_destroy s r ts
    simp only [advance, run, hendings]
    exact hstate
  | throw q => exact ⟨by simp only [advance, hrest.isUnwinding_eq], hrest, hs⟩
  | resume q => exact ⟨rfl, hrest, hs⟩
  | join => exact ⟨rfl, hrest, hs⟩
  | spawn handles =>
    cases handles with
    | nil => exact ⟨rfl, hrest, hs⟩
    | cons h handles =>
      simp only [Task.isBare, List.all_cons, Bool.and_eq_true] at ht
      exact ⟨rfl, .cons (.same _ ht.1) (.cons (.same _ rfl) (.cons (.same _ ht.2) hrest)), hs⟩
  | settle puts pending =>
    cases pending with
    | answer a =>
      have hs₂ : s.Bares (endings ts) s' := hs
      exact alike_settle hs₂ hrest ht a a
    | failed layout onFailure =>
      cases onFailure with
      | report =>
        refine ⟨rfl, .cons (.settle puts _ _ ht) hrest, ?_⟩
        exact ⟨hs.heap, hs.slots, hs.numbered, rfl, hs.trace⟩
      | abort => exact ⟨rfl, .cons (.same _ ht) hrest, hs⟩
    | observed => cases ht

/-- A panic meets such a task in the same way. -/
theorem alike_unwind (hL : (s.ledger (t :: ts)).Sound) (hs : s.Bares (endings (t :: ts)) s')
    (ht : t.isBare) (hrest : Tasks.Bares ts us) (q : Panic) :
    Alike (unwind s q t ts) (unwind s' q t us) := by
  cases t with
  | perform | report | destroy | throw | join => exact ⟨rfl, hrest, hs⟩
  | resume q' => exact ⟨rfl, hrest, hs⟩
  | drop h =>
    have hs₂ : s.Bares (endings (.resume q :: ts)) s' := hs
    have hL₂ : (s.ledger (.drop h :: .resume q :: ts)).Sound := hL
    obtain ⟨hback, htasks⟩ := hs₂.giveBackOwner hL₂ ht
    refine ⟨rfl, ?_, hback⟩
    have hbare : Tasks.Bares (s.giveBack h).2 (s.giveBack h).2 :=
      .of_forall fun t ht => isBare_of_mem_giveBack ht
    simp only [unwind, run, htasks]
    exact hbare.append (.cons (.same _ rfl) hrest)
  | finish l => exact ⟨rfl, hrest, hs.abandon hL⟩
  | spawn handles =>
    cases handles with
    | nil => exact ⟨rfl, hrest, hs⟩
    | cons h handles =>
      simp only [Task.isBare, List.all_cons, Bool.and_eq_true] at ht
      exact ⟨rfl, .cons (.same _ ht.1) (.cons (.same _ rfl) (.cons (.same _ ht.2)
        (.cons (.same _ rfl) hrest))), hs⟩
  | settle puts pending =>
    cases pending with
    | answer | failed => exact ⟨rfl, .cons (.settle puts _ _ ht) hrest, hs⟩
    | observed => cases ht

/-! ### Observers that are dropped on the way -/

/-- An observer on top of the stack is dropped. -/
theorem exists_passes_drop {h : Handle} (hm : Reachable ⟨s, .running, .drop h :: ts⟩)
    (hs : s.Bares (endings ts) s') (hh : h.isOwner = false) :
    ∃ s₂, Passes ⟨s, .running, .drop h :: ts⟩ ⟨s₂, .running, ts⟩ ∧ s₂.Bares (endings ts) s' := by
  obtain ⟨hback, htasks⟩ := hs.giveBackObserver (ReachableBy.sound hm) hh
  have hstep : Machine.step ⟨s, .running, .drop h :: ts⟩ = ⟨(s.giveBack h).1, .running, ts⟩ := by
    simp [Machine.step, advance, run, htasks]
  exact ⟨(s.giveBack h).1, .single ⟨rfl, hstep.symm⟩, hback⟩

/-- Observers are dropped, each on a thread of its own, until it is the turn of an owner. -/
theorem exists_passes_spawn {handles : List Handle}
    (hm : Reachable ⟨s, .running, .spawn handles :: ts⟩) (hs : s.Bares (endings ts) s') :
    ∃ s₂ handles₂,
      Passes ⟨s, .running, .spawn handles :: ts⟩ ⟨s₂, .running, .spawn handles₂ :: ts⟩ ∧
      s₂.Bares (endings ts) s' ∧
      handles₂.filter Handle.isOwner = handles.filter Handle.isOwner ∧
      ∀ h ∈ handles₂.head?, h.isOwner := by
  induction handles generalizing s with
  | nil => exact ⟨s, [], .refl, hs, rfl, by simp⟩
  | cons h handles ih =>
    by_cases hh : h.isOwner
    · exact ⟨s, h :: handles, .refl, hs, rfl, by simpa using hh⟩
    · replace hh : h.isOwner = false := Bool.eq_false_iff.2 hh
      have hstart : Passes ⟨s, .running, .spawn (h :: handles) :: ts⟩
          ⟨s, .running, .drop h :: .join :: .spawn handles :: ts⟩ := .single ⟨rfl, rfl⟩
      have hs₂ : s.Bares (endings (.join :: .spawn handles :: ts)) s' := hs
      obtain ⟨s₁, hdrop, hs₁⟩ := exists_passes_drop (hm.leads hstart.leads) hs₂ hh
      have hjoin : Passes ⟨s₁, .running, .join :: .spawn handles :: ts⟩
          ⟨s₁, .running, .spawn handles :: ts⟩ := .single ⟨rfl, rfl⟩
      have hpasses := (hstart.trans hdrop).trans hjoin
      obtain ⟨s₂, handles₂, hrest, hs₂, hfilter, hhead⟩ := ih (hm.leads hpasses.leads) hs₁
      refine ⟨s₂, handles₂, hpasses.trans hrest, hs₂, ?_, hhead⟩
      rw [hfilter, List.filter_cons_of_neg (by simp [hh])]

/-- Owners and observers are dropped, each on a thread of its own. -/
theorem exists_step_spawn {handles : List Handle}
    (hm : Reachable ⟨s, .running, .spawn handles :: ts⟩) (hs : s.Bares (endings ts) s')
    (hrest : Tasks.Bares ts us) :
    ∃ n, Passes (Machine.step ⟨s, .running, .spawn handles :: ts⟩) n ∧
      Alike n (Machine.step ⟨s', .running, .spawn (handles.filter Handle.isOwner) :: us⟩) := by
  obtain ⟨s₂, handles₂, hpasses, hs₂, hfilter, hhead⟩ := exists_passes_spawn hm hs
  refine ⟨_, hpasses.step_step rfl, ?_⟩
  rw [← hfilter]
  cases handles₂ with
  | nil => exact ⟨rfl, hrest, hs₂⟩
  | cons h handles₂ =>
    have hh : h.isOwner := hhead h rfl
    rw [List.filter_cons_of_pos hh]
    exact ⟨rfl, .cons (.same _ hh) (.cons (.same _ rfl) (.cons (.spawn handles₂) hrest)), hs₂⟩

/-- Owners and observers are dropped on the way of a panic. Without an owner, the panic just goes
on. -/
theorem exists_step_spawn_unwinding {handles : List Handle} {q : Panic}
    (hm : Reachable ⟨s, .unwinding q, .spawn handles :: ts⟩) (hs : s.Bares (endings ts) s')
    (hrest : Tasks.Bares ts us) :
    ∃ n, Passes (Machine.step ⟨s, .unwinding q, .spawn handles :: ts⟩) n ∧
      Alike n (Machine.step ⟨s', .unwinding q, .spawn (handles.filter Handle.isOwner) :: us⟩) := by
  cases handles with
  | nil => exact ⟨_, .refl, rfl, hrest, hs⟩
  | cons h handles =>
    by_cases hh : h.isOwner
    · rw [List.filter_cons_of_pos hh]
      exact ⟨_, .refl, rfl, .cons (.same _ hh) (.cons (.same _ rfl) (.cons (.spawn handles)
        (.cons (.same _ rfl) hrest))), hs⟩
    · replace hh : h.isOwner = false := Bool.eq_false_iff.2 hh
      rw [List.filter_cons_of_neg (by simp [hh])]
      have hs₀ : s.Bares (endings (.join :: .spawn handles :: .resume q :: ts)) s' := hs
      obtain ⟨s₁, hdrop, hs₁⟩ := exists_passes_drop (hm.leads (leads_step _)) hs₀ hh
      have hjoin : Passes ⟨s₁, .running, .join :: .spawn handles :: .resume q :: ts⟩
          ⟨s₁, .running, .spawn handles :: .resume q :: ts⟩ := .single ⟨rfl, rfl⟩
      have hbegun := hdrop.trans hjoin
      have hs₁' : s₁.Bares (endings (.resume q :: ts)) s' := hs₁
      obtain ⟨s₂, handles₂, hpasses, hs₂, hfilter, hhead⟩ :=
        exists_passes_spawn (hm.leads ((leads_step _).trans hbegun.leads)) hs₁'
      rw [← hfilter]
      cases handles₂ with
      | nil =>
        have hresume : Passes ⟨s₂, .running, .spawn [] :: .resume q :: ts⟩
            ⟨s₂, .unwinding q, ts⟩ := .step rfl (.step rfl .refl)
        exact ⟨_, (hbegun.trans hpasses).trans hresume, rfl, hrest, hs₂⟩
      | cons o handles₂ =>
        have ho : o.isOwner := hhead o rfl
        have hspawn : Passes ⟨s₂, .running, .spawn (o :: handles₂) :: .resume q :: ts⟩
            ⟨s₂, .running, .drop o :: .join :: .spawn handles₂ :: .resume q :: ts⟩ :=
          .step rfl .refl
        rw [List.filter_cons_of_pos ho]
        exact ⟨_, (hbegun.trans hpasses).trans hspawn, rfl, .cons (.same _ ho)
          (.cons (.same _ rfl) (.cons (.spawn handles₂) (.cons (.same _ rfl) hrest))), hs₂⟩

end running

theorem paused_cons (s s' : State) (control : Control) (t : Task) (ts us : List Task) :
    paused ⟨s', control, t :: us⟩ = paused ⟨s, control, t :: ts⟩ := by
  cases control <;> cases t <;> rfl

/-- A machine that does not pause goes on, and so does what is left of it, unless only an observer
is dropped. -/
theorem Alike.exists_step (hm : m.Reachable) (h : Alike m e) (hpaused : m.paused = false) :
    ∃ n k, Passes m.step n ∧ Passes e k ∧ Alike n k := by
  have hL : m.ledger.Sound := ReachableBy.sound hm
  obtain ⟨s, control, stack⟩ := m
  obtain ⟨s', control', stack'⟩ := e
  obtain ⟨hcontrol, htasks, hs⟩ := h
  obtain rfl : control' = control := hcontrol
  cases htasks with
  | nil => cases control' <;> cases hpaused
  | @drop ts _ h hh hrest =>
    have hs₂ : s.Bares (endings ts) s' := hs
    obtain ⟨hback, htasks⟩ := hs₂.giveBackObserver hL hh
    cases control' with
    | aborted layout => cases hpaused
    | running =>
      have hstep : Machine.step ⟨s, .running, .drop h :: ts⟩ =
          ⟨(s.giveBack h).1, .running, ts⟩ := by
        simp [Machine.step, advance, run, htasks]
      exact ⟨_, _, .refl, .refl, by rw [hstep], by rwa [hstep], by rwa [hstep]⟩
    | unwinding q =>
      have hstep : Machine.step ⟨s, .unwinding q, .drop h :: ts⟩ =
          ⟨(s.giveBack h).1, .running, .resume q :: ts⟩ := by
        simp [Machine.step, unwind, run, htasks]
      rw [hstep]
      exact ⟨⟨(s.giveBack h).1, .unwinding q, ts⟩, _, .step rfl .refl, .refl, rfl, hrest, hback⟩
  | @cons t u ts us ht hrest =>
    cases control' with
    | aborted layout => cases hpaused
    | running =>
      cases ht with
      | same _ ht =>
        have hc : ∀ c, t ≠ .perform c := by
          rintro c rfl
          cases hpaused
        have hpaused' := (paused_cons s s' .running t ts us).trans hpaused
        exact ⟨_, _, .refl, .step hpaused' .refl, alike_advance hL hs ht hrest hc⟩
      | spawn handles =>
        have hs₂ : s.Bares (endings ts) s' := hs
        obtain ⟨n, hpasses, halike⟩ := exists_step_spawn hm hs₂ hrest
        exact ⟨n, _, hpasses, .step rfl .refl, halike⟩
      | settle puts a a' hputs =>
        have hs₂ : s.Bares (endings ts) s' := hs
        exact ⟨_, _, .refl, .step rfl .refl, alike_settle hs₂ hrest hputs a a'⟩
    | unwinding q =>
      have hpaused' := (paused_cons s s' (.unwinding q) t ts us).trans hpaused
      cases ht with
      | same _ ht => exact ⟨_, _, .refl, .step hpaused' .refl, alike_unwind hL hs ht hrest q⟩
      | spawn handles =>
        have hs₂ : s.Bares (endings ts) s' := hs
        obtain ⟨n, hpasses, halike⟩ := exists_step_spawn_unwinding hm hs₂ hrest
        exact ⟨n, _, hpasses, .step rfl .refl, halike⟩
      | settle puts a a' hputs =>
        exact ⟨_, _, .refl, .step rfl .refl, rfl, .cons (.settle puts _ _ hputs) hrest, hs⟩

/-- Machines that are alike are alike when they pause next. -/
theorem Alike.exists_pauses (hm : m.Reachable) (h : Alike m e) :
    ∃ n k, Pauses m n ∧ Pauses e k ∧ Alike n k := by
  induction hweight : m.weight using Nat.strong_induction_on generalizing m e with
  | _ w ih =>
    cases hpaused : m.paused with
    | true => exact ⟨m, e, .of_paused hpaused, .of_paused (h.paused hpaused), h⟩
    | false =>
      obtain ⟨n, k, hpasses, hpasses', halike⟩ := h.exists_step hm hpaused
      have hlt : n.weight < w := by
        have hstep := weight_step_lt (halted_of_not_paused hpaused)
        have hle := hpasses.weight_le
        omega
      have hm' := hm.leads ((leads_step m).trans hpasses.leads)
      obtain ⟨n', k', hn, hk, halike'⟩ := ih n.weight hlt hm' halike rfl
      exact ⟨n', k', .of_passes (hpasses.step hpaused) hn, .of_passes hpasses' hk, halike'⟩

end Machine

end SharedOwnership
