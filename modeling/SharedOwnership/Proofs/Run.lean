import Mathlib.Logic.Relation
import SharedOwnership.Session

/-!
# Runs

A run starts from nothing. Whenever its machine has nothing left to do, it is given the next
command, which may be any; in between it takes one step after the other. The states inside a release
action are states of the machine like any other, so what holds of every machine that some run passes
through holds inside release actions, too.

## Main definitions

* `Command.All` — whether a property holds of a command and of the commands nested in it.
* `Machine.Move` — a step, or the next command.
* `Machine.Leads` — some run passes through one machine and later through another.
* `Machine.Reachable`, `Machine.ReachableBy` — some run passes through a machine.
* `Machine.shared`, `Machine.amidRelease` — what one run passes through.
-/

namespace SharedOwnership

mutual

/-- Whether a property holds of a command and of all commands in its release script. -/
def Command.All (p : Command → Prop) : Command → Prop
  | .adopt target ty content onFailure terms script =>
    p (.adopt target ty content onFailure terms script) ∧ Command.AllIn p script
  | .replace handle value terms script =>
    p (.replace handle value terms script) ∧ Command.AllIn p script
  | c => p c

/-- Whether a property holds of all commands of a script and of those nested in them. -/
def Command.AllIn (p : Command → Prop) : List Command → Prop
  | [] => True
  | c :: script => c.All p ∧ Command.AllIn p script

end

/-- The commands that a release action carries out. -/
def ReleaseAction.script : ReleaseAction → List Command
  | .discard => []
  | .scripted _ _ script _ => script

namespace Command

variable {p : Command → Prop}

theorem All.self {c : Command} (h : c.All p) : p c := by
  cases c with
  | adopt | replace =>
    simp only [All] at h
    exact h.1
  | _ => simpa only [All] using h

theorem allIn_iff {script : List Command} : AllIn p script ↔ ∀ c ∈ script, c.All p := by
  induction script with
  | nil => simp [AllIn]
  | cons c script ih => simp [AllIn, ih]

mutual

/-- What holds of every command holds of those nested in a command. -/
theorem all_of_forall (h : ∀ c, p c) (c : Command) : c.All p := by
  cases c with
  | adopt _ _ _ _ _ script | replace _ _ _ script =>
    rw [All]
    exact ⟨h _, allIn_of_forall h script⟩
  | _ => exact h _

theorem allIn_of_forall (h : ∀ c, p c) (script : List Command) : AllIn p script := by
  cases script with
  | nil => simp [AllIn]
  | cons c script => exact ⟨all_of_forall h c, allIn_of_forall h script⟩

end

end Command

namespace Machine

/-- One move of a run: a step, or the next command for a machine that has nothing left to do. -/
inductive Move (p : Command → Prop) (m : Machine) : Machine → Prop
  | step : Move p m m.step
  | command (c : Command) (hc : c.All p) (hcontrol : m.control = .running) (hstack : m.stack = []) :
    Move p m { m with stack := [.perform c] }

/-- Some run of commands with the property `p` passes through `m` and then, or later, through
`n`. -/
def Leads (p : Command → Prop) (m n : Machine) : Prop := Relation.ReflTransGen (Move p) m n

/-- Some run of commands with the property `p` passes through `m`. -/
def ReachableBy (p : Command → Prop) (m : Machine) : Prop := Leads p {} m

/-- Some run passes through `m`. -/
def Reachable (m : Machine) : Prop := ReachableBy (fun _ => True) m

variable {p : Command → Prop} {m n : Machine}

theorem Leads.trans {k : Machine} (h : Leads p m n) (h' : Leads p n k) : Leads p m k :=
  Relation.ReflTransGen.trans h h'

theorem Leads.tail {k : Machine} (h : Leads p m n) (h' : Move p n k) : Leads p m k :=
  Relation.ReflTransGen.tail h h'

theorem leads_step (m : Machine) : Leads p m m.step := Relation.ReflTransGen.single .step

/-- A run may be longer than it was. -/
theorem ReachableBy.leads (h : ReachableBy p m) (h' : Leads p m n) : ReachableBy p n :=
  Leads.trans h h'

/-- What carries out a command to its end stays on one run. -/
theorem leads_steps (m : Machine) (fuel : Nat) : Leads p m (m.steps fuel) := by
  induction fuel generalizing m with
  | zero => exact .refl
  | succ fuel ih =>
    rw [steps]
    split
    · exact .refl
    · exact (leads_step m).trans (ih m.step)

theorem reachableBy_steps (h : ReachableBy p m) (fuel : Nat) : ReachableBy p (m.steps fuel) :=
  h.leads (leads_steps m fuel)

/-- A session, which carries out each command to its end, stays on one run. -/
theorem leads_perform {c : Command} (hc : c.All p) (hcontrol : m.control = .running)
    (hstack : m.stack = []) : Leads p m (m.state.perform c) := by
  have hmove : Move p m { m with stack := [.perform c] } := .command c hc hcontrol hstack
  have hstart : ({ m with stack := [.perform c] } : Machine) =
      { state := m.state, stack := [.perform c] } := by rw [← hcontrol]
  rw [hstart] at hmove
  exact Leads.trans (.single hmove) (leads_steps _ _)

/-- Carry out commands one after the other, as long as the machine comes to rest. -/
def performAll (m : Machine) : List Command → Machine
  | [] => m
  | c :: script =>
    if m.control = .running ∧ m.stack.isEmpty then performAll (m.state.perform c) script else m

theorem leads_performAll {script : List Command} (hall : Command.AllIn p script) :
    Leads p m (m.performAll script) := by
  induction script generalizing m with
  | nil => exact .refl
  | cons c script ih =>
    rw [performAll]
    split
    · next hrest =>
      exact (leads_perform hall.1 hrest.1 (List.isEmpty_iff.1 hrest.2)).trans (ih hall.2)
    · exact .refl

/-- Carrying out commands goes on from where the first of them lead. -/
theorem leads_performAll_take {script : List Command} (hall : Command.AllIn p script) (n : Nat) :
    Leads p (m.performAll (script.take n)) (m.performAll script) := by
  induction script generalizing m n with
  | nil =>
    rw [List.take_nil]
    exact .refl
  | cons c script ih =>
    cases n with
    | zero => exact leads_performAll hall
    | succ n =>
      rw [List.take_succ_cons, performAll, performAll]
      split
      · exact ih hall.2 n
      · exact .refl

theorem reachableBy_performAll {script : List Command} (h : ReachableBy p m)
    (hall : Command.AllIn p script) : ReachableBy p (m.performAll script) :=
  h.leads (leads_performAll hall)

/-! ### A run -/

/-- A record gets a second owner, which points at a part of it, and an observer. The release action
of the record works on the observer. -/
def sharing : List Command :=
  [.adopt "owner" .record (some ⟨.record { x := 7 }, rfl⟩) .abort ⟨.none, false, false⟩
      [.clone "observer" "other", .drop "observer"],
    .downgrade "owner" "observer",
    .projectClone "owner" "part" (some .x)]

/-- The record is shared. -/
def shared : Machine := performAll {} sharing

/-- Its owners are gone, the last of them just now, and the release action has cloned the
observer. -/
def amidRelease : Machine :=
  steps 3 { state := (shared.performAll [.drop "owner"]).state, stack := [.perform (.drop "part")] }

theorem reachable_amidRelease : amidRelease.Reachable := by
  have hall : ∀ script, Command.AllIn (fun _ => True) script :=
    Command.allIn_of_forall fun _ => trivial
  have hdropped : (shared.performAll [.drop "owner"]).Reachable :=
    reachableBy_performAll (reachableBy_performAll .refl (hall sharing)) (hall _)
  exact reachableBy_steps (hdropped.tail (.command (.drop "part") trivial rfl rfl)) 3

end Machine

end SharedOwnership
