import SharedOwnership.Proofs.Ledger.Step

/-!
# A block that was freed is left alone

Put anything you like in the place of a block that was freed: no step sees it and no step changes
it, as long as no handle is left that could lead there. So stepping and planting commute.

## Main definitions

* `Heap.plant`, `State.plant`, `Machine.plant` — put a block in the place of one that was freed.

## Main results

* `Machine.step_plant` — no step sees what was planted.
-/

namespace SharedOwnership

namespace Table

variable {α : Type} {t : Table α} {l l' : Nat} {a : α}

/-- Put an entry in the place of one that was erased. -/
def plant (t : Table α) (l : Nat) (a : α) : Table α :=
  match l with
  | 0 => t
  | i + 1 => ⟨t.entries.set i (some a)⟩

@[simp] theorem next_plant (t : Table α) (l : Nat) (a : α) : (t.plant l a).next = t.next := by
  cases l <;> simp [plant, next]

theorem get?_plant_self (hpos : 0 < l) (hlt : l < t.next) : (t.plant l a).get? l = some a := by
  rcases l with _ | i
  · cases hpos
  · simp [plant, Nat.lt_of_succ_lt_succ hlt]

theorem get?_plant (h : l' ≠ l) : (t.plant l a).get? l' = t.get? l' := by
  rcases l with _ | i
  · rfl
  · rcases l' with _ | j
    · rfl
    · have hne : i ≠ j := fun heq => h (by rw [heq])
      simp only [get?_succ, plant, List.getElem?_set_ne hne]

theorem modify_plant (h : l' ≠ l) (f : α → α) :
    (t.plant l a).modify l' f = (t.modify l' f).plant l a := by
  rcases l with _ | i
  · rfl
  · rcases l' with _ | j
    · rfl
    · simp only [modify, plant, mk.injEq]
      apply List.ext_getElem?
      intro n
      simp only [List.getElem?_modify, List.getElem?_set, List.length_modify]
      by_cases hj : j = n
      · have hi : i ≠ n := fun heq => h (by rw [hj, heq])
        simp [hj, hi]
      · simp [hj]

theorem erase_plant (h : l' ≠ l) : (t.plant l a).erase l' = (t.erase l').plant l a := by
  rcases l with _ | i
  · rfl
  · rcases l' with _ | j
    · rfl
    · have hne : i ≠ j := fun heq => h (by rw [heq])
      simp only [erase, plant, List.set_comm _ _ hne]

theorem insert_plant (h : l < t.next) (a' : α) :
    (t.plant l a).insert a' = (t.insert a').plant l a := by
  rcases l with _ | i
  · rfl
  · have hlt : i < t.entries.length := Nat.lt_of_succ_lt_succ h
    simp only [insert, plant, List.set_append_left _ _ hlt]

end Table

/-- The block that a command names by its label. -/
def Command.label? : Command → Option Nat
  | .leak l _ _ | .unleak l _ _ => some l
  | _ => none

namespace Heap

/-- Put a block in the place of one that was freed. -/
def plant (heap : Heap) (l : Nat) (b : Block) : Heap :=
  { heap with blocks := heap.blocks.plant l b }

variable {heap : Heap} {l l' : Nat} {b : Block} {h : Handle} {k : Kind}

@[simp] theorem resources_plant (heap : Heap) (l : Nat) (b : Block) :
    (heap.plant l b).resources = heap.resources := rfl

theorem blocks_plant (heap : Heap) (l : Nat) (b : Block) :
    (heap.plant l b).blocks = heap.blocks.plant l b := rfl

theorem get?_plant (hl : l' ≠ l) : (heap.plant l b).blocks.get? l' = heap.blocks.get? l' :=
  Table.get?_plant hl

theorem modifyBlock_plant (hl : l' ≠ l) (f : Block → Block) :
    (heap.plant l b).modifyBlock l' f = (heap.modifyBlock l' f).plant l b := by
  simp only [modifyBlock, plant, Table.modify_plant hl]

theorem allocate_plant (hl : l < heap.blocks.next) (layout : Layout) (resource : Option Nat)
    (action : ReleaseAction) : (heap.plant l b).allocate layout resource action =
      ((heap.allocate layout resource action).1.plant l b,
        (heap.allocate layout resource action).2) := by
  simp only [allocate, plant, Table.insert_plant hl, Table.next_plant]

theorem keep_plant (heap : Heap) (l : Nat) (b : Block) (c : Option Content) :
    (heap.plant l b).keep c = ((heap.keep c).1.plant l b, (heap.keep c).2) := by
  cases c <;> rfl

theorem count_plant (hl : l' ≠ l) : (heap.plant l b).count k l' = heap.count k l' := by
  simp only [count, get?_plant hl]

theorem addUnit_plant (hl : l' ≠ l) :
    (heap.plant l b).addUnit k l' = ((heap.addUnit k l').1.plant l b, (heap.addUnit k l').2) := by
  simp only [addUnit, get?_plant hl, modifyBlock_plant hl]
  cases heap.blocks.get? l' <;> rfl

/-- A handle that does not lead to the block. -/
theorem ne_of_block {l' : Nat} (hh : h.block ≠ some l) (hl : h.block = some l') : l' ≠ l :=
  fun heq => hh (heq ▸ hl)

theorem share_plant (hh : h.block ≠ some l) :
    (heap.plant l b).share h k = ((heap.share h k).1.plant l b, (heap.share h k).2) := by
  rw [share, share]
  split
  · rfl
  · next l' hl =>
    rw [addUnit_plant (ne_of_block hh hl)]

theorem clone_plant (hh : h.block ≠ some l) :
    (heap.plant l b).clone h = ((heap.clone h).1.plant l b, (heap.clone h).2) := share_plant hh

theorem downgrade_plant (hh : h.block ≠ some l) :
    (heap.plant l b).downgrade h = ((heap.downgrade h).1.plant l b, (heap.downgrade h).2) :=
  share_plant hh

theorem lock_plant (hh : h.block ≠ some l) :
    (heap.plant l b).lock h = ((heap.lock h).1.plant l b, (heap.lock h).2) := by
  rw [lock, lock]
  split
  · rfl
  · next l' hl =>
    have hne := ne_of_block hh hl
    rw [get?_plant hne]
    split
    · rfl
    · split
      · rfl
      · simp only [setBlock, modifyBlock_plant hne]
      · rfl

theorem useCount_plant (hh : h.block ≠ some l) :
    (heap.plant l b).useCount h = heap.useCount h := by
  rw [useCount, useCount]
  split
  · next l' hl => exact count_plant (ne_of_block hh hl)
  · rfl

theorem forget_plant (hh : h.block ≠ some l) :
    (heap.plant l b).forget h = (heap.forget h).plant l b := by
  rw [forget, forget]
  split
  · next l' hl => exact modifyBlock_plant (ne_of_block hh hl) _
  · rfl

theorem churnOwner_plant (hh : h.block ≠ some l) : (heap.plant l b).churnOwner h =
    ((heap.churnOwner h).1.plant l b, (heap.churnOwner h).2) := by
  rw [churnOwner, churnOwner]
  rw [clone_plant hh]
  rcases hclone : heap.clone h with ⟨heap₁, e | copy⟩
  · rfl
  obtain rfl : copy = h := clone_eq_ok hclone
  simp only
  rw [downgrade_plant hh]
  rcases hdown : heap₁.downgrade copy with ⟨heap₂, e | observer⟩
  · simp only [forget_plant hh]
  · obtain rfl : observer = { copy with kind := .weak } := downgrade_eq_ok hdown
    have ho : ({ copy with kind := .weak } : Handle).block ≠ some l := hh
    simp only [forget_plant hh, forget_plant ho, useCount_plant ho]

/-- A lock leads nowhere that its observer does not lead. -/
theorem block_lock {owner : Handle} (hs : (heap.lock h).2 = .ok owner) (hh : h.block ≠ some l) :
    owner.block ≠ some l := by
  rw [lock] at hs
  split at hs
  · cases hs
    simp [Handle.empty]
  · split at hs
    · cases hs
      simp [Handle.empty]
    · split at hs <;> cases hs
      · simp [Handle.empty]
      · exact hh

theorem churnObserver_plant (hh : h.block ≠ some l) : (heap.plant l b).churnObserver h =
    ((heap.churnObserver h).1.plant l b, (heap.churnObserver h).2) := by
  rw [churnObserver, churnObserver]
  rw [clone_plant hh]
  rcases hclone : heap.clone h with ⟨heap₁, e | copy⟩
  · rfl
  obtain rfl : copy = h := clone_eq_ok hclone
  simp only
  rw [lock_plant hh]
  rcases hlock : heap₁.lock copy with ⟨heap₂, e | owner⟩
  · simp only [forget_plant hh]
  · have ho : owner.block ≠ some l := block_lock (congrArg Prod.snd hlock) hh
    simp only [forget_plant hh, forget_plant ho, useCount_plant ho]

theorem churnThread_plant (hh : h.block ≠ some l) (rounds total : Nat) :
    (heap.plant l b).churnThread h rounds total =
      ((heap.churnThread h rounds total).1.plant l b, (heap.churnThread h rounds total).2) := by
  induction rounds generalizing heap total with
  | zero => rfl
  | succ rounds ih =>
    have hround : (heap.plant l b).churnRound h =
        ((heap.churnRound h).1.plant l b, (heap.churnRound h).2) := by
      rw [churnRound, churnRound]
      split
      · exact churnOwner_plant hh
      · exact churnObserver_plant hh
    rw [churnThread, churnThread]
    rw [hround]
    rcases heap.churnRound h with ⟨heap₁, e | n⟩
    · rfl
    · exact ih (total + n)

theorem churn_plant (hh : h.block ≠ some l) (rounds threads : Nat) :
    (heap.plant l b).churn h rounds threads =
      ((heap.churn h rounds threads).1.plant l b, (heap.churn h rounds threads).2) := by
  induction threads generalizing heap with
  | zero => rfl
  | succ threads ih =>
    rw [churn, churn]
    rw [churnThread_plant hh]
    rcases heap.churnThread h rounds 0 with ⟨heap₁, e | n⟩ <;> simp only [ih]

end Heap

namespace State

/-- Put a block in the place of one that was freed. -/
def plant (s : State) (l : Nat) (b : Block) : State := { s with heap := s.heap.plant l b }

variable {s : State} {l l' : Nat} {b : Block} {h : Handle}

theorem giveBackWeak_plant (hl : l' ≠ l) :
    (s.plant l b).giveBackWeak l' = (s.giveBackWeak l').plant l b := by
  simp only [giveBackWeak, plant, Heap.get?_plant hl]
  split
  · rfl
  · split
    · simp only [record, Heap.plant, Table.erase_plant hl]
    · simp only [Heap.removeUnit, Heap.modifyBlock_plant hl]

theorem giveBackStrong_plant (hl : l' ≠ l) : (s.plant l b).giveBackStrong l' =
    ((s.giveBackStrong l').1.plant l b, (s.giveBackStrong l').2) := by
  have hheap : (s.plant l b).heap = s.heap.plant l b := rfl
  rw [giveBackStrong, giveBackStrong]
  rw [hheap, Heap.get?_plant hl]
  split
  · rfl
  · simp only [Heap.removeUnit, Heap.modifyBlock_plant hl]
    split
    · split
      · rfl
      · next action _ =>
        simp only [record, Heap.modifyBlock_plant hl]
        cases action <;> rfl
    · rfl

theorem giveBack_plant (hh : h.block ≠ some l) :
    (s.plant l b).giveBack h = ((s.giveBack h).1.plant l b, (s.giveBack h).2) := by
  rw [giveBack, giveBack]
  split
  · rfl
  · next l' hl =>
    have hne := Heap.ne_of_block hh hl
    split
    · exact giveBackStrong_plant hne
    · rw [giveBackWeak_plant hne]

theorem destroy_plant (s : State) (l : Nat) (b : Block) (r : Nat) :
    (s.plant l b).destroy r = ((s.destroy r).1.plant l b, (s.destroy r).2) := by
  have hresources : (s.plant l b).heap.resources = s.heap.resources := rfl
  rw [destroy, destroy]
  rw [hresources]
  cases s.heap.resources.get? r with
  | none => rfl
  | some x =>
    simp only
    cases dropped x.content <;> rfl

theorem abandon_plant (hl : l' ≠ l) : (s.plant l b).abandon l' = (s.abandon l').plant l b := by
  simp only [abandon, plant, Heap.modifyBlock_plant hl]

/-! ### Commands -/

theorem check_plant (s : State) (l : Nat) (b : Block) (guards : List Guard) :
    (s.plant l b).check guards = s.check guards := by
  induction guards with
  | nil => rfl
  | cons g guards ih => cases g <;> simp only [check, ih] <;> rfl

theorem takeAll_plant (s : State) (l : Nat) (b : Block) (names : List String) :
    (s.plant l b).takeAll names = ((s.takeAll names).1.plant l b, (s.takeAll names).2) := by
  induction names generalizing s with
  | nil => rfl
  | cons name names ih =>
    have hhandle : (s.plant l b).handle name = s.handle name := rfl
    have hvacate : (s.plant l b).vacate name = (s.vacate name).plant l b := rfl
    rw [takeAll, takeAll]
    rw [hhandle, hvacate, ih]
    cases s.handle name <;> rfl

theorem adoption_plant (hl : l < s.heap.blocks.next) (ty : Ty) (content : Option (Content.Of ty))
    (carried : Layout) (action : ReleaseAction) (fails : Bool) :
    (s.plant l b).adoption ty content carried action fails =
      ((s.adoption ty content carried action fails).1.plant l b,
        (s.adoption ty content carried action fails).2) := by
  have hl' : l < (s.heap.keep (content.map Subtype.val)).1.blocks.next := by
    rwa [Heap.blocks_keep]
  cases fails with
  | true =>
    rw [adoption_true, adoption_true]
    simp only [plant, Heap.keep_plant]
    cases action <;> rfl
  | false =>
    rw [adoption_false, adoption_false]
    have hadopted : Handle.adopted ty content (s.heap.plant l b) = .adopted ty content s.heap := by
      simp [Handle.adopted, Heap.blocks_plant]
    simp only [plant, Heap.keep_plant, Heap.allocate_plant hl', hadopted, Heap.blocks_plant,
      Table.next_plant]
    rfl

/-- A state and the tasks that remain, with a block planted. -/
def plantNext (l : Nat) (b : Block) (next : State × List Task) : State × List Task :=
  (next.1.plant l b, next.2)

theorem deliver_plant (s : State) (l : Nat) (b : Block) (slot : String)
    (made : Heap × Except Panic Handle) (answer : Handle → Answer) :
    (s.plant l b).deliver slot (made.1.plant l b, made.2) answer =
      plantNext l b (s.deliver slot made answer) := by
  rw [deliver]
  rcases made with ⟨heap, e | h⟩ <;> rfl

theorem adoptInto_plant (hl : l < s.heap.blocks.next) (slot : String) (ty : Ty)
    (content : Option (Content.Of ty)) (carried : Layout) (action : ReleaseAction)
    (onFailure : OnFailure) (fails : Bool) :
    (s.plant l b).adoptInto slot ty content carried action onFailure fails =
      plantNext l b (s.adoptInto slot ty content carried action onFailure fails) := by
  rw [adoptInto, adoptInto]
  rw [adoption_plant hl]
  rcases s.adoption ty content carried action fails with ⟨s', ⟨layout, tasks⟩ | h⟩ <;> rfl

theorem replace_plant (hl : l < s.heap.blocks.next) (slot : String) (h : Handle)
    (content : Option (Content.Of h.ty)) (terms : Terms) (script : List Command) :
    (s.plant l b).replace slot h content terms script =
      plantNext l b (s.replace slot h content terms script) := by
  have hnumber : (s.plant l b).number = (s.number.1.plant l b, s.number.2) := rfl
  have hl' : l < s.number.1.heap.blocks.next := hl
  rw [replace, replace]
  rw [hnumber]
  simp only
  rw [adoption_plant hl']
  rcases s.number.1.adoption h.ty content terms.carried
    (.scripted s.number.2 h.ty script terms.panics) terms.fails with ⟨s', ⟨layout, tasks⟩ | h⟩
  · rfl
  · rfl

theorem project_plant (s : State) (l : Nat) (b : Block) (slot target : String) (h : Handle)
    (f : Projection) (ty : Ty) : (s.plant l b).project slot target h f ty =
      plantNext l b (s.project slot target h f ty) := by
  have hpointed : (s.plant l b).heap.pointed h f = s.heap.pointed h f := rfl
  rw [project, project]
  rw [hpointed]
  cases s.heap.pointed h f <;> rfl

theorem projectClone_plant (hh : h.block ≠ some l) (target : String) (f : Projection) (ty : Ty) :
    (s.plant l b).projectClone target h f ty = plantNext l b (s.projectClone target h f ty) := by
  have hheap : (s.plant l b).heap = s.heap.plant l b := rfl
  rw [projectClone, projectClone]
  rw [hheap, Heap.clone_plant hh]
  rcases s.heap.clone h with ⟨heap, e | copy⟩
  · rfl
  · have hpointed : (heap.plant l b).pointed copy f = heap.pointed copy f := rfl
    simp only
    rw [hpointed]
    cases heap.pointed copy f <;> rfl

theorem setBlock_plant (hl : l' ≠ l) (side : Kind) (reason : Refusal) (f : Block → Option Block) :
    (s.plant l b).setBlock l' side reason f =
      (s.setBlock l' side reason f).map (plantNext l b) := by
  have hheap : (s.plant l b).heap = s.heap.plant l b := rfl
  rw [setBlock, setBlock]
  rw [hheap, Heap.get?_plant hl]
  cases s.heap.blocks.get? l' with
  | none => rfl
  | some c =>
    simp only
    cases f c with
    | none => rfl
    | some c' =>
      simp only [Heap.setBlock, Heap.modifyBlock_plant hl]
      rfl

theorem bind_eq_map_bind {ε α β γ : Type} {x : Except ε α} {f : α → Except ε β}
    {f' : α → Except ε γ} {g : β → γ} (h : ∀ a, x = .ok a → f' a = (f a).map g) :
    (x >>= f') = (x >>= f).map g := by
  cases x with
  | error e => rfl
  | ok a => exact h a rfl

/-- A command does not see a block that no slot leads to and that it does not name. -/
theorem plan_plant (hl : l < s.heap.blocks.next)
    (hslots : ∀ name h, s.slots.get? name = some h → h.block ≠ some l) {c : Command}
    (hc : c.label? ≠ some l) : (s.plant l b).plan c = (s.plan c).map (plantNext l b) := by
  have hh : ∀ name h, s.handle name = .ok h → h.block ≠ some l :=
    fun name h hg => hslots name h (handle_eq_ok.1 hg)
  have hheap : (s.plant l b).heap = s.heap.plant l b := rfl
  -- operands are looked up in the slots, so planting shows only in what is done with them
  cases c with
  | malformed guards reason =>
    simp only [plan, check_plant]
    cases s.check guards <;> rfl
  | create target ty content onFailure fails =>
    refine bind_eq_map_bind fun _ _ => ?_
    exact congrArg Except.ok (adoptInto_plant hl target ty _ .none .discard onFailure fails)
  | adopt target ty content onFailure terms script =>
    refine bind_eq_map_bind fun _ _ => ?_
    have hl' : l < s.number.1.heap.blocks.next := hl
    exact congrArg Except.ok (adoptInto_plant hl' target ty _ _ _ onFailure _)
  | empty target kind ty => exact bind_eq_map_bind fun _ _ => rfl
  | clone name target =>
    refine bind_eq_map_bind fun _ _ => bind_eq_map_bind fun h hg => ?_
    have hdeliver := deliver_plant s l b target (s.heap.clone h) fun _ => .done
    rw [← Heap.clone_plant (hh name h hg)] at hdeliver
    exact congrArg Except.ok hdeliver
  | take name target => exact bind_eq_map_bind fun _ _ => bind_eq_map_bind fun _ _ => rfl
  | downgrade name target =>
    refine bind_eq_map_bind fun _ _ => bind_eq_map_bind fun h hg => bind_eq_map_bind fun _ _ => ?_
    have hdeliver := deliver_plant s l b target (s.heap.downgrade h) fun _ => .done
    rw [← Heap.downgrade_plant (hh name h hg)] at hdeliver
    exact congrArg Except.ok hdeliver
  | lock name target =>
    refine bind_eq_map_bind fun _ _ => bind_eq_map_bind fun h hg => bind_eq_map_bind fun _ _ => ?_
    have hdeliver := deliver_plant s l b target (s.heap.lock h)
      fun owner => .locked owner.pointer.isNone
    rw [← Heap.lock_plant (hh name h hg)] at hdeliver
    exact congrArg Except.ok hdeliver
  | drop name | dropOnThread name | reset name => exact bind_eq_map_bind fun _ _ => rfl
  | replace name value terms script =>
    refine bind_eq_map_bind fun h _ => bind_eq_map_bind fun _ _ => ?_
    cases value
    all_goals
      refine bind_eq_map_bind fun content _ => ?_
      exact congrArg Except.ok (replace_plant hl name h content terms script)
  | swap name other => exact bind_eq_map_bind (x := s.pair name other) fun _ _ => rfl
  | assign name source =>
    refine bind_eq_map_bind (x := s.pair name source) fun pair hpair => ?_
    obtain ⟨g, g'⟩ := pair
    have hg' := hslots source g' (pair_eq_ok hpair).2.2
    simp only [hheap, Heap.clone_plant hg']
    rcases s.heap.clone g' with ⟨heap, e | new⟩ <;> rfl
  | sameAddress name other =>
    refine bind_eq_map_bind fun h _ => bind_eq_map_bind fun g _ => ?_
    split
    · rfl
    · exact bind_eq_map_bind fun _ _ => rfl
  | sameOwner name other =>
    refine bind_eq_map_bind fun h _ => bind_eq_map_bind fun g _ => ?_
    split
    · rfl
    · exact bind_eq_map_bind fun _ _ => rfl
  | read name access =>
    refine bind_eq_map_bind fun h _ => bind_eq_map_bind fun _ _ => ?_
    have hread : (s.plant l b).heap.read h = s.heap.read h := rfl
    rw [hread]
    cases access <;> cases s.heap.read h <;> rfl
  | inspect name =>
    refine bind_eq_map_bind fun h hg => ?_
    have hinspect : (s.plant l b).inspection h = s.inspection h := by
      simp only [inspection, hheap, Heap.useCount_plant (hh name h hg)]
    rw [hinspect]
    rfl
  | debug name style => exact bind_eq_map_bind fun h _ => by cases style <;> rfl
  | showPointer name style =>
    exact bind_eq_map_bind fun h _ => bind_eq_map_bind fun _ _ => by cases style <;> rfl
  | project name target f =>
    simp only [plan]
    split
    on_goal 1 => refine bind_eq_map_bind fun _ _ => ?_
    all_goals
      refine bind_eq_map_bind fun h _ => ?_
      cases f.bind fun f => (f.target h.kind h.ty).map (f, ·) with
      | none => rfl
      | some fty => exact congrArg Except.ok (project_plant s l b name target h fty.1 fty.2)
  | projectClone name target f =>
    refine bind_eq_map_bind fun _ _ => bind_eq_map_bind fun h hg => ?_
    cases f.bind fun f => (f.target h.kind h.ty).map (f, ·) with
    | none => rfl
    | some fty => exact congrArg Except.ok (projectClone_plant (hh name h hg) target fty.1 fty.2)
  | link name child =>
    refine bind_eq_map_bind fun g _ => ?_
    exact bind_eq_map_bind fun h _ => bind_eq_map_bind fun node _ => rfl
  | unlink name target index =>
    refine bind_eq_map_bind fun _ _ => bind_eq_map_bind fun h _ => bind_eq_map_bind fun node _ => ?_
    have hresources : (s.plant l b).heap.resources = s.heap.resources := rfl
    rw [hresources]
    cases (s.heap.resources.get? node).bind fun r => r.links[index]? <;> rfl
  | churn name threads rounds =>
    refine bind_eq_map_bind fun h hg => ?_
    simp only [hheap, Heap.churn_plant (hh name h hg)]
    rfl
  | raceDrop names =>
    simp only [plan, takeAll_plant]
    rcases s.takeAll names with ⟨s', hs, _ | reason⟩ <;> rfl
  | raceLock name observer =>
    refine bind_eq_map_bind fun h _ => bind_eq_map_bind fun _ _ => ?_
    have hobserver : ((s.plant l b).vacate name).handle observer =
        (s.vacate name).handle observer := rfl
    simp only [hobserver]
    cases (s.vacate name).handle observer with
    | error reason => rfl
    | ok w =>
      simp only
      cases requireWeak w <;> rfl
  | leak block side n =>
    have hne : block ≠ l := fun heq => hc (congrArg some heq)
    exact setBlock_plant hne side _ _
  | unleak block side n =>
    have hne : block ≠ l := fun heq => hc (congrArg some heq)
    exact setBlock_plant hne side _ _
  | slots => rfl

theorem begin_plant (hl : l < s.heap.blocks.next)
    (hslots : ∀ name h, s.slots.get? name = some h → h.block ≠ some l) {c : Command}
    (hc : c.label? ≠ some l) : (s.plant l b).begin c = plantNext l b (s.begin c) := by
  rw [begin, begin]
  rw [plan_plant hl hslots hc]
  cases s.plan c <;> rfl

end State

namespace Machine

/-- Put a block in the place of one that was freed. -/
def plant (m : Machine) (l : Nat) (b : Block) : Machine := { m with state := m.state.plant l b }

variable {m : Machine} {l : Nat} {b : Block}

theorem settle_plant (s : State) (l : Nat) (b : Block) (puts : List (String × Handle)) (a : Answer)
    (rest : List Task) :
    settle (s.plant l b) puts a rest = (settle s puts a rest).plant l b := by
  cases puts <;> rfl

theorem resolve_plant {s : State} {puts : List (String × Handle)} {pending : Pending}
    {rest : List Task} (hputs : ∀ w ∈ puts, w.2.block ≠ some l) :
    resolve (s.plant l b) puts pending rest = (resolve s puts pending rest).plant l b := by
  simp only [resolve]
  split
  · rfl
  · rfl
  · rfl
  · split
    · rfl
    · next slot w puts =>
      have hw : w.block ≠ some l := hputs (slot, w) List.mem_cons_self
      have hheap : (s.plant l b).heap = s.heap.plant l b := rfl
      rw [hheap, Heap.lock_plant hw]
      rcases s.heap.lock w with ⟨heap, e | owner⟩
      · rfl
      · simp only [Heap.useCount_plant hw]
        rfl

/-- The handles that a machine works on next are among its handles. -/
theorem mem_handles_of_stack {t : Task} {rest : List Task} {h : Handle}
    (hstack : m.stack = t :: rest) (hh : h ∈ t.handles) : h ∈ m.handles := by
  simp only [handles, hstack, List.flatMap_cons, Multiset.mem_add, Multiset.mem_coe,
    List.mem_append]
  exact .inr (.inl hh)

/-- No step sees a block that no handle leads to, and none changes it. -/
theorem step_plant (hl : l < m.state.heap.blocks.next) (hh : ∀ h ∈ m.handles, h.block ≠ some l)
    (hf : Task.finish l ∉ m.stack)
    (hc : ∀ c rest, m.stack = .perform c :: rest → c.label? ≠ some l) :
    (m.plant l b).step = m.step.plant l b := by
  have hslots : ∀ slot h, m.state.slots.get? slot = some h → h.block ≠ some l :=
    fun slot h hg => hh h (State.mem_handles_ledger hg m.stack)
  obtain ⟨s, control, stack⟩ := m
  rcases stack with _ | ⟨t, rest⟩
  · cases control <;> rfl
  have ht : ∀ h ∈ t.handles, h.block ≠ some l := fun h ht => hh h (mem_handles_of_stack rfl ht)
  have hne : ∀ l', t = .finish l' → l' ≠ l := by
    rintro l' rfl rfl
    exact hf List.mem_cons_self
  cases control with
  | running =>
    show advance (s.plant l b) t rest = (advance s t rest).plant l b
    cases t with
    | perform c =>
      simp only [advance, State.begin_plant hl hslots (hc c rest rfl)]
      rfl
    | drop h =>
      have hblock : h.block ≠ some l := ht h List.mem_cons_self
      simp only [advance, State.giveBack_plant hblock]
      rfl
    | finish l' =>
      simp only [advance, State.giveBackWeak_plant (hne l' rfl)]
      rfl
    | destroy r =>
      simp only [advance, State.destroy_plant]
      rfl
    | report | throw | resume | join => rfl
    | spawn hs => cases hs <;> rfl
    | settle puts pending =>
      have hputs : ∀ w ∈ puts, w.2.block ≠ some l :=
        fun w hw => ht w.2 (List.mem_map_of_mem hw)
      cases pending with
      | answer a => exact settle_plant s l b puts a rest
      | failed | observed =>
        simp only [advance]
        exact resolve_plant hputs
  | unwinding e =>
    show unwind (s.plant l b) e t rest = (unwind s e t rest).plant l b
    cases t with
    | drop h =>
      have hblock : h.block ≠ some l := ht h List.mem_cons_self
      simp only [unwind, State.giveBack_plant hblock]
      rfl
    | finish l' =>
      simp only [unwind, State.abandon_plant (hne l' rfl)]
      rfl
    | perform | report | destroy | throw | resume | join | settle => rfl
    | spawn hs => cases hs <;> rfl
  | aborted layout => rfl

end Machine

end SharedOwnership
