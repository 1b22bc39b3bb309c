import SharedOwnership.Machine.State

/-!
# Teardown

The two phases in which a control block goes. The drop of the last owner starts the release action;
when that has returned, the weak unit of the owners is given back. Whoever gives back the last weak
unit frees the block.

## Main definitions

* `State.start` — enter a release action.
* `State.giveBack` — give back the unit of a handle.
* `State.giveBackWeak` — give back one weak unit.
* `State.destroy` — drop a resource.
-/

namespace SharedOwnership

namespace ReleaseAction

/-- What a release action does with a resource, in order. -/
def tasks (action : ReleaseAction) (resource : Option Nat) : List Task :=
  let destroy := resource.toList.map .destroy
  match action with
  | .discard => destroy
  | .scripted _ _ script panics =>
    script.flatMap (fun c => [.perform c, .report]) ++ destroy ++
      (if panics then [.throw .release] else [])

end ReleaseAction

namespace State

/-- Enter a release action: what it says on entry, and what it is going to do. -/
def start (s : State) (action : ReleaseAction) (resource : Option Nat) : State × List Task :=
  let s := match action with
    | .discard => s
    | .scripted number ty _ _ =>
      let value := (resource.bind s.heap.resources.get?).map fun r => r.value.under ty
      s.record (.entered number value)
  (s, action.tasks resource)

/-- Give back a weak unit of the block labelled `l`; the last one frees the block. -/
def giveBackWeak (s : State) (l : Nat) : State :=
  match s.heap.blocks.get? l with
  | none => s
  | some b =>
    if b.counts.weak = 1 then
      let s := (s.record (.deallocating l)).record (.deallocated l b.layout)
      { s with heap := { s.heap with blocks := s.heap.blocks.erase l } }
    else { s with heap := s.heap.removeUnit .weak l }

/-- Give back a strong unit of the block labelled `l`; the last one starts the release action, after
which the weak unit of the owners goes too. -/
def giveBackStrong (s : State) (l : Nat) : State × List Task :=
  match s.heap.blocks.get? l with
  | none => (s, [])
  | some b =>
    let s := { s with heap := s.heap.removeUnit .strong l }
    if b.counts.strong = 1 then
      let s := s.record (.releasing l)
      match b.action with
      | none => (s, [.finish l])
      | some action =>
        let s := { s with heap := s.heap.modifyBlock l fun b => { b with action := none } }
        let (s, tasks) := s.start action b.resource
        (s, tasks ++ [.finish l])
    else (s, [])

/-- Give back the unit of a handle, if it holds one. -/
def giveBack (s : State) (h : Handle) : State × List Task :=
  match h.block with
  | none => (s, [])
  | some l =>
    match h.kind with
    | .strong => s.giveBackStrong l
    | .weak => (s.giveBackWeak l, [])

/-- What is told when data are dropped. -/
def dropped : Content → Option Event
  | .record r => some (.recordDropped r.x)
  | .node v => some (.nodeDropped v)
  | _ => none

/-- Drop the resource labelled `l`; the handles it held are dropped after it, in order. -/
def destroy (s : State) (l : Nat) : State × List Task :=
  match s.heap.resources.get? l with
  | none => (s, [])
  | some r =>
    let s := match dropped r.content with
      | some e => s.record e
      | none => s
    ({ s with heap := { s.heap with resources := s.heap.resources.erase l } }, r.links.map .drop)

/-- Give up the weak unit that the owners of the block labelled `l` held together: its release
action unwound. -/
def abandon (s : State) (l : Nat) : State :=
  { s with heap := s.heap.modifyBlock l fun b => { b with unwound := true } }

/-! ### What is given back -/

variable {s : State} {l : Nat} {b : Block}

/-- The last strong unit starts the release action. -/
theorem giveBackStrong_last {action : ReleaseAction} (hb : s.heap.blocks.get? l = some b)
    (hone : b.counts.strong = 1) (haction : b.action = some action) :
    s.giveBackStrong l =
      (((({ s with heap := s.heap.setBlock l { b.removeUnit .strong with action := none } } :
          State).record (.releasing l)).start action b.resource).1,
        action.tasks b.resource ++ [.finish l]) := by
  have hheap : (s.heap.removeUnit .strong l).modifyBlock l (fun b => { b with action := none }) =
      s.heap.setBlock l { b.removeUnit .strong with action := none } := by
    rw [Heap.removeUnit, Heap.modifyBlock, Heap.modifyBlock, Table.modify_modify]
    exact Heap.modifyBlock_eq_setBlock _ hb
  simp only [giveBackStrong, hb, hone, if_true, haction, record, hheap]
  rfl

theorem giveBackStrong_more (hb : s.heap.blocks.get? l = some b) (hone : b.counts.strong ≠ 1) :
    s.giveBackStrong l = ({ s with heap := s.heap.setBlock l (b.removeUnit .strong) }, []) := by
  simp only [giveBackStrong, hb, if_neg hone, Heap.removeUnit, Heap.modifyBlock_eq_setBlock _ hb]

/-- The last weak unit frees the block. -/
theorem giveBackWeak_last (hb : s.heap.blocks.get? l = some b) (hone : b.counts.weak = 1) :
    s.giveBackWeak l = { s with
      heap := { s.heap with blocks := s.heap.blocks.erase l },
      trace := .deallocated l b.layout :: .deallocating l :: s.trace } := by
  simp only [giveBackWeak, hb, hone, if_true]
  rfl

theorem giveBackWeak_more (hb : s.heap.blocks.get? l = some b) (hone : b.counts.weak ≠ 1) :
    s.giveBackWeak l = { s with heap := s.heap.setBlock l (b.removeUnit .weak) } := by
  simp only [giveBackWeak, hb, if_neg hone, Heap.removeUnit, Heap.modifyBlock_eq_setBlock _ hb]

/-- A unit that was added to others is given back, and that is all. -/
theorem giveBack_added {h : Handle} (hl : h.block = some l) (hb : s.heap.blocks.get? l = some b)
    (hpos : 0 < b.counts.get h.kind) :
    ({ s with heap := s.heap.setBlock l { b with
        counts := b.counts.modify h.kind (· + 1) } } : State).giveBack h = (s, []) := by
  generalize hadded : ({ b with counts := b.counts.modify h.kind (· + 1) } : Block) = c
  have hc : (s.heap.setBlock l c).blocks.get? l = some c := Heap.get?_setBlock_self hb c
  have hcount : c.counts.get h.kind ≠ 1 := by
    rw [← hadded, Counts.get_modify_self]
    omega
  have hremoved : c.removeUnit h.kind = b := by
    subst hadded
    cases hk : h.kind <;> rfl
  have hheap : (s.heap.setBlock l c).setBlock l b = s.heap := by
    rw [Heap.setBlock_setBlock, Heap.setBlock_self hb]
  simp only [giveBack, hl]
  cases hk : h.kind with
  | strong =>
    rw [hk] at hcount hremoved
    have hback := giveBackStrong_more (s := { s with heap := s.heap.setBlock l c }) hc hcount
    simp only [hremoved, hheap] at hback
    exact hback
  | weak =>
    rw [hk] at hcount hremoved
    have hback := giveBackWeak_more (s := { s with heap := s.heap.setBlock l c }) hc hcount
    simp only [hremoved, hheap] at hback
    exact congrArg (·, []) hback

end State

end SharedOwnership
