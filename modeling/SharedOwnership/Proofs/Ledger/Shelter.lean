import Mathlib.Data.List.Chain
import SharedOwnership.Proofs.Ledger.Holding

/-!
# How far a panic gets

A panic unwinds the stack until a command catches it. The drops and the ends of release actions that
it meets on the way are seen to. A command, a report or the drop of a resource would be lost if it
met them; but each of these lies directly below a task that no panic leaves, so it never does. And a
panic that is not one of a release action is caught at once, so it leaves no release action.

## Main definitions

* `Task.isLost`, `Task.confines` — what a panic must not meet, and what it does not leave.
* `Task.raisesOther`, `Task.catches` — where other panics start, and where they end.
* `Sheltered` — whether the tasks of a stack that a panic must not meet are sheltered from it.
* `Confined` — whether no panic leaves the tasks of a command.
* `Machine.PanicSafe` — whether a panic that unwinds the stack of a machine does no harm.
-/

namespace SharedOwnership

namespace Task

/-- Whether a task is not carried out if a panic unwinds it. -/
def isLost : Task → Bool
  | .perform _ | .report | .destroy _ => true
  | _ => false

/-- Whether no panic leaves a task: a command ends with a task that catches them. -/
def confines : Task → Bool
  | .perform _ | .report | .settle _ _ => true
  | _ => false

/-- Whether a task catches the panics that it meets. -/
def catches : Task → Bool
  | .settle _ _ => true
  | _ => false

/-- Whether a panic that is not one of a release action starts from a task, or goes on from it. -/
def raisesOther : Task → Bool
  | .throw p | .resume p => p ≠ .release
  | _ => false

/-- Whether a task may lie directly above another one. -/
@[mk_iff]
structure Shelters (t t' : Task) : Prop where
  lost : t'.isLost → t.confines
  caught : t.raisesOther → t'.catches

theorem raisesOther_of_confines {t : Task} (h : t.confines) : t.raisesOther = false := by
  cases t with
  | throw | resume => cases h
  | _ => rfl

end Task

/-- The tasks that a panic must not meet lie below tasks that no panic leaves, and the panics that
are not those of release actions are caught at once. -/
def Sheltered (ts : List Task) : Prop := ts.IsChain Task.Shelters

/-- No panic leaves the tasks of a command. -/
structure Confined (ts : List Task) : Prop where
  sheltered : Sheltered ts
  last : ∀ t ∈ ts.getLast?, t.confines

/-- No panics leave the tasks but those of release actions. -/
structure Contained (ts : List Task) : Prop where
  sheltered : Sheltered ts
  release : ∀ t ∈ ts, t.raisesOther = false

variable {ts rest : List Task} {t : Task}

theorem sheltered_cons :
    Sheltered (t :: rest) ↔ (∀ t' ∈ rest.head?, t.Shelters t') ∧ Sheltered rest :=
  List.isChain_cons

/-- A panic may meet all of the tasks. -/
theorem contained_of_forall (h : ∀ t ∈ ts, t.isLost = false ∧ t.raisesOther = false) :
    Contained ts := by
  refine ⟨?_, fun t ht => (h t ht).2⟩
  induction ts with
  | nil => exact .nil
  | cons t ts ih =>
    refine sheltered_cons.2 ⟨fun t' ht' => ⟨fun hlost => ?_, fun hraises => ?_⟩,
      ih fun t' ht' => h t' (.tail t ht')⟩
    · simp [(h t' (.tail t (List.mem_of_mem_head? ht'))).1] at hlost
    · simp [(h t List.mem_cons_self).2] at hraises

/-- The panic of a projection comes after the drop of the handle. -/
theorem sheltered_raise (h : Handle) (p : Panic) : Sheltered [.drop h, .resume p] :=
  sheltered_cons.2 ⟨by simp [Task.shelters_iff, Task.isLost, Task.raisesOther], .singleton _⟩

theorem Confined.append (h : Confined ts) (hrest : Sheltered rest) : Sheltered (ts ++ rest) := by
  refine List.isChain_append.2 ⟨h.sheltered, hrest, fun t ht t' _ => ⟨fun _ => h.last t ht, ?_⟩⟩
  simp [Task.raisesOther_of_confines (h.last t ht)]

/-- A panic that leaves the upper tasks may meet the next one. -/
theorem Contained.append (h : Contained ts) (hrest : Sheltered rest)
    (hhead : ∀ t ∈ rest.head?, t.isLost = false) : Sheltered (ts ++ rest) := by
  refine List.isChain_append.2 ⟨h.sheltered, hrest, fun t ht t' ht' => ⟨fun hlost => ?_, ?_⟩⟩
  · simp [hhead t' ht'] at hlost
  · simp [h.release t (List.mem_of_mem_getLast? ht)]

/-- The end of a command catches the panics of the command. -/
theorem Sheltered.settle (h : Sheltered ts) (puts : List (String × Handle)) (pending : Pending) :
    Confined (ts ++ [.settle puts pending]) := by
  refine ⟨List.isChain_append.2 ⟨h, .singleton _, fun t _ t' ht' => ?_⟩, fun t ht => ?_⟩
  · obtain rfl : Task.settle puts pending = t' := by simpa using ht'
    exact ⟨by simp [Task.isLost], fun _ => rfl⟩
  · obtain rfl : Task.settle puts pending = t := by simpa using ht
    rfl

/-- What lies below a task that a panic may leave is not lost to the panic. -/
theorem Sheltered.head (h : Sheltered (t :: rest)) (ht : t.confines = false) :
    ∀ t' ∈ rest.head?, t'.isLost = false := by
  intro t' ht'
  cases hlost : t'.isLost with
  | false => rfl
  | true => exact absurd (((sheltered_cons.1 h).1 t' ht').lost hlost) (by simp [ht])

/-- What lies below a task that raises a panic of another kind catches it. -/
theorem Sheltered.catches (h : Sheltered (t :: rest)) (ht : t.raisesOther) :
    ∀ t' ∈ rest.head?, t'.catches :=
  fun t' ht' => ((sheltered_cons.1 h).1 t' ht').caught ht

/-- A panic of a release action comes after the drop of the resource, and those of the commands of
its script do not leave the commands. -/
theorem ReleaseAction.contained_tasks (action : ReleaseAction) (resource : Option Nat) :
    Contained (action.tasks resource) := by
  have hend : ∀ panics : Bool, Contained (resource.toList.map .destroy ++
      if panics then [Task.throw .release] else []) := by
    intro panics
    refine ⟨?_, ?_⟩ <;> cases resource <;> cases panics <;>
      simp [Sheltered, Task.shelters_iff, Task.isLost, Task.raisesOther]
  cases action with
  | discard => simpa [tasks] using hend false
  | scripted number ty script panics =>
    simp only [tasks, List.append_assoc]
    induction script with
    | nil => exact hend panics
    | cons c script ih =>
      simp only [List.flatMap_cons, List.cons_append, List.nil_append]
      have hconfines : ∀ {t : Task}, t.confines → ∀ t', t.Shelters t' := fun ht t' =>
        ⟨fun _ => ht, by simp [Task.raisesOther_of_confines ht]⟩
      refine ⟨sheltered_cons.2 ⟨fun t' _ => hconfines rfl t', sheltered_cons.2
        ⟨fun t' _ => hconfines rfl t', ih.sheltered⟩⟩, ?_⟩
      simpa [Task.raisesOther] using ih.release

namespace Machine

variable {m : Machine}

/-- A panic meets nothing that would be lost, and only those of release actions get far. -/
structure PanicSafe (m : Machine) : Prop where
  stack : Sheltered m.stack
  unwinding : ∀ e, m.control = .unwinding e → ∀ t ∈ m.stack.head?, t.isLost = false
  caught : ∀ e, m.control = .unwinding e → e ≠ .release → ∀ t ∈ m.stack.head?, t.catches

/-- Only a panic of a release action leaves a release action. -/
theorem PanicSafe.eq_release (h : m.PanicSafe) {e : Panic} {l : Nat} {rest : List Task}
    (hcontrol : m.control = .unwinding e) (hstack : m.stack = .finish l :: rest) :
    e = .release := by
  by_contra hne
  cases h.caught e hcontrol hne (.finish l) (by simp [hstack])

/-- No panic unwinds yet. -/
theorem PanicSafe.of_control (hcontrol : ∀ e, m.control ≠ .unwinding e) (h : Sheltered m.stack) :
    m.PanicSafe :=
  ⟨h, fun e he => absurd he (hcontrol e), fun e he => absurd he (hcontrol e)⟩

end Machine

end SharedOwnership
