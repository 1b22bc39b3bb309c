import Mathlib.Data.Finite.Defs
import Mathlib.Order.WellFounded
import SharedOwnership.Proofs.Expiry
import SharedOwnership.Proofs.Ownership

/-!
# Leaks come from cycles of owners

When no handle is left outside resources, whatever was not released is owned by a cycle of owners
that resources hold, and whatever block is still there is either that of such a resource, or such a
resource holds an observer of it. So without a cycle everything was released and freed, each block
once.

That is so of every run in which no release action panics, no handle is forgotten and no overflow
loses a unit. All of these mark their block, so it is enough if the blocks that are there in the end
carry no mark.

## Main definitions

* `Block.Intact` — whether nothing of that kind happened to a block.
* `Machine.Calm` — whether nothing of that kind happens at one point of a run.
* `Machine.ReachableCalmly` — whether nothing of that kind happens on some run.
* `Machine.performsCalmly` — whether it does when commands are carried out.
* `Machine.LeaksFromCycles` — what there is when no handle is left outside resources.

## Main results

* `Machine.intact_of_calm` — a run on which nothing of that kind happens leaves blocks intact.
* `Machine.leaksFromCycles_of_reachable` — that is all there is at the end of a calm run.
-/

namespace SharedOwnership

/-- Every unit of the block is held, no handle of it was forgotten and no overflow lost one, and its
release action did not unwind. -/
def Block.Intact (b : Block) : Prop :=
  b.unheld .strong = 0 ∧ b.unheld .weak = 0 ∧ b.unwound = false

instance (b : Block) : Decidable b.Intact := inferInstanceAs (Decidable (_ ∧ _))

namespace Machine

/-- No panic of a release action unwinds, and no block has a unit that was forgotten or lost. -/
structure Calm (m : Machine) : Prop where
  control : m.control ≠ .unwinding .release
  held : ∀ b ∈ m.state.heap.blocks.values, ∀ k, b.unheld k = 0

/-- Some run passes through `m`, and it is calm until then. -/
def ReachableCalmly (m : Machine) : Prop :=
  Relation.ReflTransGen (fun k n => Move (fun _ => True) k n ∧ n.Calm) {} m

variable {m : Machine} {l : Nat} {b : Block}

theorem calm_iff : m.Calm ↔ m.control ≠ .unwinding .release ∧
    ∀ b ∈ m.state.heap.blocks.values, b.unheld .strong = 0 ∧ b.unheld .weak = 0 := by
  constructor
  · intro hcalm
    exact ⟨hcalm.control, fun b hb => ⟨hcalm.held b hb .strong, hcalm.held b hb .weak⟩⟩
  · rintro ⟨hcontrol, hheld⟩
    refine ⟨hcontrol, ?_⟩
    intro b hb k
    cases k with
    | strong => exact (hheld b hb).1
    | weak => exact (hheld b hb).2

instance (m : Machine) : Decidable m.Calm := decidable_of_iff' _ calm_iff

/-- A calm step leaves no block whose release action unwound. -/
theorem unwound_step_of_calm (hm : m.Reachable) (hcalm : m.Calm)
    (hunwound : ∀ l b, m.state.heap.blocks.get? l = some b → b.unwound = false)
    (hb : m.step.state.heap.blocks.get? l = some b) : b.unwound = false := by
  obtain ⟨hL, hobeys⟩ := ReachableBy.sound_obeys hm
  cases hget : m.state.heap.blocks.get? l with
  | none =>
    -- a new block has its release action still to come
    have hstep := step_ledger hL hobeys
    have haction := hstep.isSome_action_of_new hget hb
    have hcommon := ((hstep.sound hL).accounts l b hb).common_le
    rw [Ledger.common, haction, Bool.toNat_true] at hcommon
    exact Bool.toNat_eq_zero.1 (by omega)
  | some c =>
    rcases unwound_step hL hobeys hget hb with hsame | ⟨⟨e, hcontrol⟩, rest, hstack⟩
    · exact hsame.trans (hunwound l c hget)
    · obtain rfl := hobeys.safe.eq_release hcontrol hstack
      exact absurd hcontrol hcalm.control

/-- A run that is calm throughout leaves its blocks intact. -/
theorem intact_of_calm (h : m.ReachableCalmly) :
    ∀ b ∈ m.state.heap.blocks.values, b.Intact := by
  have hall : m.Reachable ∧ m.Calm ∧
      ∀ l b, m.state.heap.blocks.get? l = some b → b.unwound = false := by
    induction h with
    | refl =>
      have hnone : ∀ l, (Table.empty : Table Block).get? l = none := Table.get?_empty
      refine ⟨.refl, ⟨nofun, nofun⟩, ?_⟩
      intro l b hb
      cases (hnone l).symm.trans hb
    | tail _ hmove ih =>
      obtain ⟨hn, hcalm, hunwound⟩ := ih
      obtain ⟨hmove, hcalm'⟩ := hmove
      refine ⟨hn.leads (.single hmove), hcalm', ?_⟩
      cases hmove with
      | command => exact hunwound
      | step => exact fun l b => unwound_step_of_calm hn hcalm hunwound
  obtain ⟨-, hcalm, hunwound⟩ := hall
  intro b hb
  obtain ⟨l, hl⟩ := Table.mem_values.1 hb
  exact ⟨hcalm.held b hb .strong, hcalm.held b hb .weak, hunwound l b hl⟩

/-- Whether a machine is calm, and stays so for `fuel` steps. -/
def staysCalm : Nat → Machine → Bool
  | 0, m => m.Calm
  | fuel + 1, m => m.Calm && (m.halted || staysCalm fuel m.step)

/-- Whether commands can be carried out one after the other and the machine is calm throughout. -/
def performsCalmly (m : Machine) : List Command → Bool
  | [] => true
  | c :: script =>
    let start : Machine := { state := m.state, stack := [.perform c] }
    staysCalm start.weight start && performsCalmly (m.state.perform c) script

theorem calm_of_staysCalm {fuel : Nat} (h : staysCalm fuel m) : m.Calm := by
  cases fuel with
  | zero => exact of_decide_eq_true h
  | succ fuel => exact of_decide_eq_true (Bool.and_eq_true_iff.1 h).1

theorem ReachableCalmly.steps (h : m.ReachableCalmly) {fuel : Nat} (hcalm : staysCalm fuel m) :
    (m.steps fuel).ReachableCalmly := by
  induction fuel generalizing m with
  | zero => exact h
  | succ fuel ih =>
    rw [Machine.steps]
    split
    · exact h
    · next hgoes =>
      have hrest : staysCalm fuel m.step := by simpa [hgoes] using (Bool.and_eq_true_iff.1 hcalm).2
      exact ih (h.tail ⟨.step, calm_of_staysCalm hrest⟩) hrest

theorem ReachableCalmly.performAll (h : m.ReachableCalmly) {script : List Command}
    (hcalm : m.performsCalmly script) : (m.performAll script).ReachableCalmly := by
  induction script generalizing m with
  | nil => exact h
  | cons c script ih =>
    obtain ⟨hfirst, hrest⟩ := Bool.and_eq_true_iff.1 hcalm
    rw [Machine.performAll]
    split
    · next hatRest =>
      have hstart : ({ m with stack := [.perform c] } : Machine) =
          { state := m.state, stack := [.perform c] } := by rw [← hatRest.1]
      have hmove : Move (fun _ => True) m { state := m.state, stack := [.perform c] } :=
        hstart ▸ .command c (Command.all_of_forall (fun _ => trivial) c) hatRest.1
          (List.isEmpty_iff.1 hatRest.2)
      exact ih (ReachableCalmly.steps (h.tail ⟨hmove, calm_of_staysCalm hfirst⟩) hfirst) hrest
    · exact h

end Machine

/-- Where everyone in a finite set has a predecessor there, everyone descends from a cycle. -/
theorem exists_cycle {α : Type} {r : α → α → Prop} {s : Set α} (hs : s.Finite)
    (hback : ∀ a ∈ s, ∃ b ∈ s, r b a) {a : α} (ha : a ∈ s) :
    ∃ c, Relation.TransGen r c c ∧ Relation.ReflTransGen r c a := by
  by_contra hnone
  push Not at hnone
  -- without a cycle the ancestors of `a` are well-founded, and the first one has no predecessor
  let ancestors : Set α := {c | c ∈ s ∧ Relation.ReflTransGen r c a}
  have hfinite : Finite ancestors := (hs.subset fun c hc => hc.1).to_subtype
  let before : ancestors → ancestors → Prop := fun c d => Relation.TransGen r c.1 d.1
  have htrans : IsTrans ancestors before := ⟨fun _ _ _ => Relation.TransGen.trans⟩
  have hirrefl : Std.Irrefl before := ⟨fun c hc => hnone c.1 hc c.2.2⟩
  have hwf : WellFounded before := Finite.wellFounded_of_trans_of_irrefl before
  obtain ⟨⟨c, hc, hca⟩, -, hfirst⟩ := hwf.has_min Set.univ ⟨⟨a, ha, .refl⟩, trivial⟩
  obtain ⟨b, hb, hbc⟩ := hback c hc
  exact hfirst ⟨b, hb, .head hbc hca⟩ trivial (.single hbc)

namespace Machine

/-- What there is when no handle is left outside resources. -/
structure LeaksFromCycles (m : Machine) : Prop where
  /-- Every resource belongs to a block that was not released. -/
  resource : ∀ r x, m.state.heap.resources.get? r = some x → ∃ l, m.state.heap.InCharge l r
  /-- Every block that was not released is owned by a cycle of owners, perhaps through others. -/
  cycle : ∀ l, m.state.heap.Unreleased l →
    ∃ c, Relation.TransGen (m.state.heap.Holds .strong) c c ∧
      Relation.ReflTransGen (m.state.heap.Holds .strong) c l
  /-- Every other block has an observer that the resource of such a block holds. -/
  block : ∀ l b, m.state.heap.blocks.get? l = some b →
    m.state.heap.Unreleased l ∨ ∃ l', m.state.heap.Holds .weak l' l
  /-- Without a cycle of owners everything is gone: every block that was ever made was released
  once and freed once. -/
  clean : (∀ c, ¬ Relation.TransGen (m.state.heap.Holds .strong) c c) →
    (∀ r, m.state.heap.resources.get? r = none) ∧
      ∀ l, m.state.heap.born l → m.state.heap.blocks.get? l = none ∧
        m.state.trace.count (.releasing l) = 1 ∧ m.state.trace.countP (Event.frees l) = 1

variable {m : Machine} {l : Nat} {b : Block}

/-- A handle that is left when the slots are empty is one that a resource holds. -/
theorem exists_holds_of_slots_eq_nil (hm : m.Reachable) (hstack : m.stack = [])
    (hslots : m.state.slots.entries = []) {k : Kind} (hpos : 0 < holders k l m.handles) :
    ∃ l', m.state.heap.Holds k l' l := by
  obtain ⟨h, hh, rfl, hl⟩ := Multiset.countP_pos.1 hpos
  refine (exists_holds hm hstack hh hl).resolve_left ?_
  rintro ⟨name, hname⟩
  rw [Slots.get?_eq_some, hslots] at hname
  cases hname

/-- A block that was not released has an owner that a resource holds. -/
theorem exists_owner (hm : m.Reachable) (hstack : m.stack = [])
    (hslots : m.state.slots.entries = []) (hb : m.state.heap.blocks.get? l = some b)
    (hintact : b.Intact) (haction : b.action.isSome) : ∃ l', m.state.heap.Holds .strong l' l := by
  have hL : m.ledger.Sound := ReachableBy.sound hm
  have hacc := hL.accounts l b hb
  have hpos := hacc.live.1 haction
  have hstrong := hacc.strong
  rw [hintact.1] at hstrong
  refine exists_holds_of_slots_eq_nil hm hstack hslots ?_
  rw [handles_ledger] at hstrong
  omega

/-- A block that was released has an observer that a resource holds. -/
theorem exists_observer (hm : m.Reachable) (hstack : m.stack = [])
    (hslots : m.state.slots.entries = []) (hb : m.state.heap.blocks.get? l = some b)
    (hintact : b.Intact) (haction : b.action = none) : ∃ l', m.state.heap.Holds .weak l' l := by
  have hL : m.ledger.Sound := ReachableBy.sound hm
  have hacc := hL.accounts l b hb
  have hpos := hacc.weak_pos
  have hweak := hacc.weak
  have hcommon : m.ledger.common l b = 0 := by
    simp [Ledger.common, ledger, State.ledger, hstack, haction, hintact.2.2]
  rw [hintact.2.1, hcommon] at hweak
  refine exists_holds_of_slots_eq_nil hm hstack hslots ?_
  rw [handles_ledger] at hweak
  omega

/-- When no handle is left outside resources, leaks come from cycles of owners only, if the run was
calm, or if it has at least left the blocks intact that are there. -/
theorem leaksFromCycles_of_reachable (hm : m.Reachable) (hstack : m.stack = [])
    (hslots : m.state.slots.entries = [])
    (hcalm : m.ReachableCalmly ∨ ∀ b ∈ m.state.heap.blocks.values, b.Intact) :
    m.LeaksFromCycles := by
  have hintact : ∀ b ∈ m.state.heap.blocks.values, b.Intact := hcalm.elim intact_of_calm id
  have hintact' : ∀ l b, m.state.heap.blocks.get? l = some b → b.Intact :=
    fun l b hb => hintact b (Table.mem_values.2 ⟨l, hb⟩)
  have hcycle : ∀ l, m.state.heap.Unreleased l →
      ∃ c, Relation.TransGen (m.state.heap.Holds .strong) c c ∧
        Relation.ReflTransGen (m.state.heap.Holds .strong) c l := by
    intro l hl
    refine exists_cycle m.state.heap.finite_unreleased ?_ hl
    rintro l ⟨b, hb, haction⟩
    obtain ⟨l', hholds⟩ := exists_owner hm hstack hslots hb (hintact' l b hb) haction
    exact ⟨l', hholds.unreleased, hholds⟩
  have hblock : ∀ l b, m.state.heap.blocks.get? l = some b →
      m.state.heap.Unreleased l ∨ ∃ l', m.state.heap.Holds .weak l' l := by
    intro l b hb
    cases haction : b.action with
    | some action => exact .inl ⟨b, hb, by simp [haction]⟩
    | none => exact .inr (exists_observer hm hstack hslots hb (hintact' l b hb) haction)
  constructor
  case resource => exact fun r x hx => exists_inCharge hm hstack hx
  case cycle => exact hcycle
  case block => exact hblock
  case clean =>
    intro hacyclic
    have hreleased : ∀ l, ¬ m.state.heap.Unreleased l := by
      intro l hl
      obtain ⟨c, hc, -⟩ := hcycle l hl
      exact hacyclic c hc
    constructor
    · intro r
      apply Option.eq_none_iff_forall_ne_some.2
      intro x hx
      obtain ⟨l, hcharge⟩ := exists_inCharge hm hstack hx
      exact hreleased l hcharge.unreleased
    · intro l hborn
      have hnone : m.state.heap.blocks.get? l = none := by
        apply Option.eq_none_iff_forall_ne_some.2
        intro b hb
        rcases hblock l b hb with hl | ⟨l', hholds⟩
        · exact hreleased l hl
        · exact hreleased l' hholds.unreleased
      have hfreed : m.state.heap.freed l := Heap.freed_iff.2 ⟨hnone, Heap.born_iff.1 hborn⟩
      obtain ⟨hreleasing, -, hdeallocated, -⟩ := chronicle_of_reachable hm
      refine ⟨hnone, ?_, ?_⟩
      · exact (hreleasing l).trans (congrArg Bool.toNat (Heap.started_of_freed hfreed))
      · exact (hdeallocated l).trans (congrArg Bool.toNat hfreed)

/-- The slots of the linked nodes are emptied. -/
def emptied (k : Kind) : Machine :=
  (linked k).performAll [.drop "first", .drop "second", .drop "text"]

/-- Nodes that own each other stay, with the block of the text that one of them observes; the text
itself is gone. If the second node only observes the first one, all three blocks are freed. -/
theorem leaksFromCycles_emptied :
    ((emptied .strong).ReachableCalmly ∧ (emptied .strong).LeaksFromCycles ∧
      (emptied .strong).state.heap.Unreleased 1 ∧ (emptied .strong).state.heap.Unreleased 2 ∧
      (emptied .strong).state.heap.started 3 ∧ (emptied .strong).state.heap.freed 3 = false) ∧
    (emptied .weak).state.heap.blocks.next = 4 ∧ ∀ l, (emptied .weak).state.heap.born l →
      (emptied .weak).state.trace.countP (Event.frees l) = 1 := by
  have hreachable : ∀ k, (emptied k).Reachable := fun k =>
    reachableBy_performAll (reachable_linked k) (Command.allIn_of_forall (fun _ => trivial) _)
  have hcalm : (emptied .strong).ReachableCalmly :=
    .performAll (.performAll .refl (by decide +kernel)) (by decide +kernel)
  refine ⟨⟨hcalm, leaksFromCycles_of_reachable (hreachable .strong) rfl rfl (.inl hcalm),
    ⟨_, rfl, rfl⟩, ⟨_, rfl, rfl⟩, rfl, rfl⟩, rfl, fun l hborn => ?_⟩
  have hleaks := leaksFromCycles_of_reachable (hreachable .weak) rfl rfl (.inr (by decide))
  have hnone : ∀ r, (emptied .weak).state.heap.resources.get? r = none :=
    Table.get?_of_values_eq_nil rfl
  refine ((hleaks.clean fun c hc => ?_).2 l hborn).2.2
  obtain ⟨d, ⟨r, x, h, -, hx, -⟩, -⟩ := Relation.TransGen.head'_iff.1 hc
  cases (hnone r).symm.trans hx

end Machine

end SharedOwnership
