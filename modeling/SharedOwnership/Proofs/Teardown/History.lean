import SharedOwnership.Proofs.Counting
import SharedOwnership.Proofs.Teardown.Steps

/-!
# The history of a teardown

A release action that runs was started once, and what waits below it on the stack has waited since.
One that has ended either unwound, or the machine came back, running, to what waited below it.

## Main definitions

* `Machine.UnderRelease` — a release action was started and has not ended.
* `Machine.Returned` — a release action was started and has returned.
-/

namespace SharedOwnership

namespace Ledger

variable {p : Command → Prop} {L L' : Ledger} {l : Nat} {b b' : Block}

/-- The release action of a block that was not there is not started yet. -/
theorem Step.isSome_action_of_new (h : Step p L L') (hnone : L.heap.blocks.get? l = none)
    (hb : L'.heap.blocks.get? l = some b') : b'.action.isSome := by
  have hentries : ∀ M, Entries p M L' → M.heap.blocks.get? l = none → b'.action.isSome := by
    intro M hM hnone
    rcases hM.keeps.of_get? hb with ⟨b, hb, -⟩ | ⟨-, action, haction, -⟩
    · cases hnone.symm.trans hb
    · simp [haction]
  cases h with
  | entries h => exact hentries L h hnone
  | turn M h h' =>
    refine hentries M h' (Option.eq_none_iff_forall_ne_some.2 fun b hb => ?_)
    obtain ⟨c, hc, -⟩ := h.of_get? hb
    cases hnone.symm.trans hc

/-- A release action that was started is not started again. -/
theorem Step.mem_finishing (hL : L.Sound) (h : Step p L L') (hb : L.heap.blocks.get? l = some b)
    (hnone : b.action = none) (hmem : l ∈ L'.finishing) : l ∈ L.finishing := by
  cases h with
  | entries h => exact h.keeps.finishing ▸ hmem
  | turn M h h' =>
    rw [h'.keeps.finishing] at hmem
    cases h with
    | release h hs l₁ b₁ hL' hk hl hb₁ hc =>
      rcases Multiset.mem_cons.1 hmem with rfl | hmem
      · obtain rfl : b = b₁ := Option.some.inj (hb.symm.trans hb₁)
        have haction := (hL.accounts l b hb).live.2 (by omega)
        simp [hnone] at haction
      · exact hmem
    | finish l₁ ls b₁ hL' => exact hL' ▸ Multiset.mem_cons_of_mem hmem
    | abandon l₁ ls b₁ hL' => exact hL' ▸ Multiset.mem_cons_of_mem hmem
    | free => exact hmem
    | finishFree l₁ ls b₁ hL' => exact hL' ▸ Multiset.mem_cons_of_mem hmem

/-- A release action that does not run does not unwind. -/
theorem Step.unwound_eq (h : Step p L L') (hb : L.heap.blocks.get? l = some b)
    (hb' : L'.heap.blocks.get? l = some b') (hmem : l ∉ L.finishing) : b'.unwound = b.unwound := by
  cases h with
  | entries h =>
    obtain ⟨c, hc, halike⟩ := h.keeps.stays l b hb
    obtain rfl : b' = c := Option.some.inj (hb'.symm.trans hc)
    exact halike.unwound
  | turn M h h' =>
    rcases h'.keeps.of_get? hb' with ⟨c, hc, halike⟩ | ⟨hnone, -⟩
    · obtain ⟨b₀, hb₀, -, hunwound⟩ := h.of_get? hc
      obtain rfl : b = b₀ := Option.some.inj (hb.symm.trans hb₀)
      exact halike.unwound.trans (hunwound.resolve_right hmem)
    · have hlt : l < M.heap.blocks.next := h.next_eq ▸ Table.lt_next_of_get? hb
      cases (h'.keeps.gone l hlt hnone).symm.trans hb'

end Ledger

namespace Machine

/-- The release action of the block labelled `l` was started, and what waits below it on the stack
has waited since. -/
def UnderRelease (m : Machine) (l : Nat) : Prop :=
  ∃ (k : Machine) (b : Block) (action : ReleaseAction) (rest : List Task),
    k.Reachable ∧ k.Releases l b action rest ∧ Leads (fun _ => True) k.step m ∧
    ∃ above, m.stack = above ++ .finish l :: rest

/-- The release action of the block labelled `l` was started, and it has returned: the machine came
back, running, to what waited below it on the stack. -/
def Returned (m : Machine) (l : Nat) : Prop :=
  ∃ (k n : Machine) (b : Block) (action : ReleaseAction) (rest : List Task),
    k.Reachable ∧ k.Releases l b action rest ∧ Leads (fun _ => True) k.step n ∧
      n.control = .running ∧ n.stack = .finish l :: rest ∧ Leads (fun _ => True) n m

/-- What has come of the release action of the block labelled `l`, if it was started. -/
structure History (m : Machine) (l : Nat) (b : Block) : Prop where
  running : m.Releasing l → m.UnderRelease l
  ended : ¬ m.Releasing l → b.unwound = false → m.Returned l

variable {m n : Machine} {l : Nat} {b b' : Block}

theorem Returned.leads (h : m.Returned l) (h' : Leads (fun _ => True) m n) : n.Returned l := by
  obtain ⟨k, j, b, action, rest, hk, hrelease, hkj, hcontrol, hstack, hjm⟩ := h
  exact ⟨k, j, b, action, rest, hk, hrelease, hkj, hcontrol, hstack, hjm.trans h'⟩

theorem UnderRelease.releasing (h : m.UnderRelease l) : m.Releasing l := by
  obtain ⟨k, c, action, rest, -, -, -, above, hstack⟩ := h
  exact releasing_iff.2 (by simp [hstack])

/-- A release action that is started runs. -/
theorem Releases.underRelease {action : ReleaseAction} {rest : List Task} (hm : m.Reachable)
    (h : m.Releases l b action rest) : m.step.UnderRelease l :=
  ⟨m, b, action, rest, hm, h, .refl, action.tasks b.resource, h.stack⟩

/-- A release action that runs goes on, or it returns, or it is unwound. -/
theorem UnderRelease.next (hm : m.Reachable) (h : m.UnderRelease l)
    (hb : m.state.heap.blocks.get? l = some b) :
    m.step.UnderRelease l ∨ ¬ m.step.Releasing l ∧
      (m.Returned l ∨
        ∀ b', m.step.state.heap.blocks.get? l = some b' → b'.unwound = true) := by
  obtain ⟨hL, hobeys⟩ := ReachableBy.sound_obeys hm
  obtain ⟨k, c, action, rest, hk, hrelease, hkm, above, hstack⟩ := h
  by_cases hcontrol : ∃ layout, m.control = .aborted layout
  · have hhalted : m.halted = true := by
      obtain ⟨layout, hlayout⟩ := hcontrol
      simp [halted, hlayout]
    rw [step_of_halted hhalted]
    exact .inl ⟨k, c, action, rest, hk, hrelease, hkm, above, hstack⟩
  push Not at hcontrol
  rcases above with _ | ⟨t, above⟩
  · -- what waited below the release action is next
    have hcount : m.ledger.finishing.count l = 1 :=
      (hL.of_mem_finishing (by simp [ledger, State.ledger, hstack, Task.finishing]) hb).2.1
    have hrest : l ∉ rest.flatMap Task.finishing := by
      rw [← List.count_eq_zero]
      simpa [ledger, State.ledger, hstack, Task.finishing] using hcount
    obtain ⟨s, control, stack⟩ := m
    obtain rfl : stack = .finish l :: rest := hstack
    refine .inr ?_
    cases control with
    | running => exact ⟨hrest, .inl ⟨k, _, c, action, rest, hk, hrelease, hkm, rfl, rfl, .refl⟩⟩
    | unwinding e =>
      refine ⟨hrest, .inr fun b' hb' => ?_⟩
      simp only [step, unwind, State.abandon, Heap.modifyBlock, Table.get?_modify, if_true] at hb'
      obtain ⟨d, -, rfl⟩ := Option.map_eq_some_iff.1 hb'
      rfl
    | aborted layout => exact absurd rfl (hcontrol layout)
  · obtain ⟨new, hnew, -⟩ := stack_step hL hobeys hstack hcontrol
    refine .inl ⟨k, c, action, rest, hk, hrelease, hkm.tail .step, new ++ above, ?_⟩
    rw [hnew]
    exact (List.append_assoc ..).symm

/-- Every release action that was started has its history. -/
theorem history_of_reachable (hm : m.Reachable) (hb : m.state.heap.blocks.get? l = some b)
    (hnone : b.action = none) : m.History l b := by
  induction hm generalizing b with
  | refl => cases (Table.get?_empty l).symm.trans hb
  | @tail n _ hn hmove ih =>
    cases hmove with
    | step =>
      obtain ⟨hL, hobeys⟩ := ReachableBy.sound_obeys hn
      have hstep := step_ledger hL hobeys
      cases hc : n.state.heap.blocks.get? l with
      | none =>
        have hsome := hstep.isSome_action_of_new hc hb
        simp [hnone] at hsome
      | some c =>
        cases hcaction : c.action with
        | some action =>
          have hstarts : n.Starts l := ⟨c, b, hc, by simp [hcaction], hb, hnone⟩
          obtain ⟨_, _, _, hreleases⟩ := hstarts.releases hL hobeys
          refine ⟨fun _ => hreleases.underRelease hn, fun hnot => ?_⟩
          exact absurd (releasing_iff.2 (by simp [hreleases.stack])) hnot
        | none =>
          obtain ⟨hrunning, hended⟩ := ih hc hcaction
          by_cases hreleasing : n.Releasing l
          · rcases (hrunning hreleasing).next hn hc with hunder | ⟨hnot, hreturned | hunwound⟩
            · refine ⟨fun _ => hunder, fun hnot => ?_⟩
              exact absurd hunder.releasing hnot
            · exact ⟨fun h => absurd h hnot, fun _ _ => hreturned.leads (leads_step n)⟩
            · refine ⟨fun h => absurd h hnot, fun _ hfalse => ?_⟩
              simp [hunwound b hb] at hfalse
          · refine ⟨fun h => absurd (hstep.mem_finishing hL hc hcaction h) hreleasing, ?_⟩
            intro _ hfalse
            have hunwound : b.unwound = c.unwound := hstep.unwound_eq hc hb hreleasing
            exact (hended hreleasing (hunwound.symm.trans hfalse)).leads (leads_step n)
    | command c hc hcontrol hstack =>
      obtain ⟨hrunning, hended⟩ := ih hb hnone
      have hnot : ¬ n.Releasing l := by simp [Releasing, hstack]
      refine ⟨fun h => absurd h (by simp [Releasing, Task.finishing]), fun _ hfalse => ?_⟩
      exact (hended hnot hfalse).leads (.single (.command c hc hcontrol hstack))

end Machine

end SharedOwnership
