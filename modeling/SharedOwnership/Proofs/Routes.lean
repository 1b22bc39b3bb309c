import SharedOwnership.Proofs.Projecting

/-!
# All routes of a projection end alike

An owner can be projected through a chain of functions on many routes. A clone of it is projected
link by link, or once by the composition of the chain; or an observer of it is projected and locked
in the end; and between the two sides a route may change at any link. What comes out depends on the
chain only, and once the handles that a route left on its way are dropped, one strong unit has come
and nothing else has changed.

## Main definitions

* `Link`, `Handle.projected` — a chain of functions, and what it makes of a handle.
* `Leg`, `Route` — what a route is made of.
* `State.gain` — further handles, each with a unit of its own.
* `Route.Travels`, `State.Discards` — a route is taken, and handles are dropped.
* `Route.Fits` — whether a route is one for a chain.
* `State.Commutes` — where the routes of a chain end.

## Main results

* `Route.exists_travels` — what comes out of a route, and what is left on its way.
* `State.exists_discards` — handles on the way are dropped in any order.
* `Machine.commutes_of_reachable` — all routes of a chain end alike.
-/

namespace SharedOwnership

/-! ### Chains -/

/-- A link of a chain: a function of pointers, and the type of what it points at. -/
structure Link where
  function : Pointer → Except Panic Pointer
  ty : Ty

/-- The composition of the functions of a chain. -/
def compose : List Link → Pointer → Except Panic Pointer
  | [], q => .ok q
  | f :: chain, q => f.function q >>= compose chain

/-- The type at the end of a chain that starts at the type `ty`. -/
def endTy (ty : Ty) : List Link → Ty
  | [] => ty
  | f :: chain => endTy f.ty chain

theorem compose_append (chain chain' : List Link) (q : Pointer) :
    compose (chain ++ chain') q = compose chain q >>= compose chain' := by
  induction chain generalizing q with
  | nil => rfl
  | cons f chain ih =>
    rw [List.cons_append, compose, compose, bind_assoc]
    exact congrArg _ (funext ih)

theorem compose_singleton (f : Link) : compose [f] = f.function := by
  funext q
  exact bind_pure (f.function q)

theorem endTy_append (ty : Ty) (chain chain' : List Link) :
    endTy ty (chain ++ chain') = endTy (endTy ty chain) chain' := by
  induction chain generalizing ty with
  | nil => rfl
  | cons f chain ih => exact ih f.ty

/-- What a chain makes of a handle. -/
def Handle.projected (h : Handle) (chain : List Link) : Except Panic Handle :=
  (h.pointedBy (compose chain)).map fun pointer => { h with ty := endTy h.ty chain, pointer }

namespace Handle

variable {h g : Handle} {f : Link} {chain chain' : List Link} {pointer : Option Pointer}

theorem projected_eq_ok : h.projected chain = .ok g ↔
    ∃ pointer, h.pointedBy (compose chain) = .ok pointer ∧
      g = { h with ty := endTy h.ty chain, pointer } := by
  rw [projected]
  cases h.pointedBy (compose chain) <;> simp [Except.map, eq_comm]

theorem projected_nil (h : Handle) : h.projected [] = .ok h := by
  obtain ⟨kind, ty, _ | q, block⟩ := h <;> rfl

/-- Link by link, or all at once. -/
theorem projected_append (h : Handle) (chain chain' : List Link) :
    h.projected (chain ++ chain') = h.projected chain >>= fun g => g.projected chain' := by
  rw [projected, projected, pointedBy, pointedBy, endTy_append]
  cases hq : h.pointer with
  | none =>
    simp only [Except.map, bind, Except.bind, projected, pointedBy]
  | some q =>
    simp only [compose_append]
    cases compose chain q <;> rfl

/-- A chain does the same for owners and observers. -/
theorem projected_withKind (k : Kind) (hprojected : h.projected chain = .ok g) :
    ({ h with kind := k } : Handle).projected chain = .ok { g with kind := k } := by
  obtain ⟨pointer, hpointer, rfl⟩ := projected_eq_ok.1 hprojected
  exact projected_eq_ok.2 ⟨pointer, hpointer, rfl⟩

theorem projected_singleton : h.projected [f] = .ok g ↔
    ∃ pointer, h.pointedBy f.function = .ok pointer ∧ g = { h with ty := f.ty, pointer } := by
  rw [projected_eq_ok, compose_singleton]
  rfl

theorem block_of_projected (hprojected : h.projected chain = .ok g) : g.block = h.block := by
  obtain ⟨pointer, -, rfl⟩ := projected_eq_ok.1 hprojected
  rfl

theorem pointer_of_projected (hprojected : h.projected chain = .ok g) (hnone : h.pointer = none) :
    g.pointer = none := by
  obtain ⟨pointer, hpointer, rfl⟩ := projected_eq_ok.1 hprojected
  rw [pointedBy, hnone] at hpointer
  exact (Except.ok.inj hpointer).symm

/-- Without a pointer no function is called. -/
theorem projected_of_null (hnone : h.pointer = none) (chain : List Link) :
    h.projected chain = .ok { h with ty := endTy h.ty chain } := by
  rw [projected, pointedBy, hnone]
  obtain ⟨kind, ty, _ | q, block⟩ := h
  · rfl
  · cases hnone

end Handle

/-! ### Units -/

namespace Heap

/-- What a handle finds that gives rise to others: units of both kinds in its block. Without a block
it has no pointer. -/
structure Sustains (heap : Heap) (h : Handle) : Prop where
  pointer : h.block = none → h.pointer = none
  block : ∀ l, h.block = some l → ∃ b, heap.blocks.get? l = some b ∧ ∀ k, 0 < b.counts.get k

variable {heap : Heap} {h g : Handle} {k : Kind}

/-- Only the block of the unit changes. -/
theorem get?_withUnit (heap : Heap) (g : Handle) (l : Nat) : (heap.withUnit g).blocks.get? l =
    if g.block = some l then
      (heap.blocks.get? l).map fun b => { b with counts := b.counts.modify g.kind (· + 1) }
    else heap.blocks.get? l := by
  cases hg : g.block with
  | none => simp only [Heap.withUnit, hg, reduceCtorEq, if_false]
  | some l' => simp only [Heap.withUnit, hg, modifyBlock, Table.get?_modify, Option.some.injEq]

theorem Sustains.withUnit (hs : heap.Sustains h) (g : Handle) : (heap.withUnit g).Sustains h := by
  refine ⟨hs.pointer, ?_⟩
  intro l hl
  obtain ⟨b, hb, hpos⟩ := hs.block l hl
  rw [get?_withUnit, hb]
  split
  · exact ⟨_, rfl, fun k => (Counts.pos_modify (by simp [hpos]) k).2 (hpos k)⟩
  · exact ⟨b, rfl, hpos⟩

/-- What gives rise to a handle also gives rise to those that are made of it. -/
theorem Sustains.congr (hs : heap.Sustains h) (hblock : g.block = h.block)
    (hpointer : h.pointer = none → g.pointer = none) : heap.Sustains g :=
  ⟨fun hnone => hpointer (hs.pointer (hblock ▸ hnone)), fun l hl => hs.block l (hblock ▸ hl)⟩

/-- A unit that the counter has room for is obtained. -/
theorem Sustains.share_eq (hs : heap.Sustains h) (hroom : heap.HasRoom { h with kind := k }) :
    heap.share h k = (heap.withUnit { h with kind := k }, .ok { h with kind := k }) := by
  rcases Option.eq_none_or_eq_some h.block with hl | ⟨l, hl⟩
  · rw [Heap.share, Heap.withUnit, hl]
  · obtain ⟨b, hb, -⟩ := hs.block l hl
    have hle : b.counts.get k ≤ unitLimit := hroom l b hl hb
    rw [share_of_block hl hb, Block.addUnit_of_le hle, Block.addUnit, if_pos hle,
      withUnit_of_block (h := { h with kind := k }) hl hb]
    rfl

/-- An observer whose owners are there is locked. -/
theorem Sustains.lock_eq (hs : heap.Sustains h) (hroom : heap.HasRoom { h with kind := .strong }) :
    heap.lock h = (heap.withUnit { h with kind := .strong }, .ok { h with kind := .strong }) := by
  rcases Option.eq_none_or_eq_some h.block with hl | ⟨l, hl⟩
  · have hpointer := hs.pointer hl
    obtain ⟨kind, ty, pointer, block⟩ := h
    obtain rfl : block = none := hl
    obtain rfl : pointer = none := hpointer
    rfl
  · obtain ⟨b, hb, hpos⟩ := hs.block l hl
    have hle : b.counts.strong ≤ unitLimit := hroom l b hl hb
    have hpromote : b.promote =
        .ok (some { b with counts := b.counts.modify .strong (· + 1) }) :=
      Block.promote_eq_some.2 ⟨hpos .strong, hle, rfl⟩
    rw [withUnit_of_block (h := { h with kind := .strong }) hl hb]
    simp only [lock, hl, hb, hpromote]

/-- Units of one block come in any order. -/
theorem withUnit_comm (heap : Heap) (hblock : h.block = g.block) :
    (heap.withUnit h).withUnit g = (heap.withUnit g).withUnit h := by
  cases hl : g.block with
  | none => simp only [Heap.withUnit, hblock, hl]
  | some l =>
    simp only [Heap.withUnit, hblock, hl, modifyBlock, Table.modify_modify]
    refine congrArg (fun f => { heap with blocks := heap.blocks.modify l f }) (funext fun b => ?_)
    cases h.kind <;> cases g.kind <;> rfl

theorem withUnit_congr (heap : Heap) (hkind : h.kind = g.kind) (hblock : h.block = g.block) :
    heap.withUnit h = heap.withUnit g := by
  rw [Heap.withUnit, Heap.withUnit, hkind, hblock]

end Heap

namespace Slots

/-- Two slots are filled in either order. -/
theorem put_comm (slots : Slots) {name other : String} (h g : Handle) (hne : name ≠ other) :
    (slots.put name h).put other g = (slots.put other g).put name h := by
  apply ext_get?
  intro slot
  simp only [get?_put]
  by_cases hother : other = slot
  · rw [if_pos hother, if_neg fun hname => hne (hname.trans hother.symm), if_pos hother]
  · rw [if_neg hother, if_neg hother]

/-- What was put into a vacant slot is taken out again. -/
theorem erase_put_of_vacant {slots : Slots} {name : String} (hv : slots.get? name = none)
    (h : Handle) : (slots.put name h).erase name = slots := by
  apply ext_get?
  intro slot
  rw [get?_erase]
  split
  · next heq => rw [← heq, hv]
  · next hne => rw [get?_put, if_neg hne]

end Slots

/-! ### Further handles -/

namespace State

/-- Further handles, each in its slot and with a unit of its own. -/
def gain (s : State) : List (String × Handle) → State
  | [] => s
  | (name, h) :: hs => { s.gain hs with
      heap := (s.gain hs).heap.withUnit h, slots := (s.gain hs).slots.put name h }

variable {s : State} {hs hs' : List (String × Handle)} {name : String} {h : Handle}
  {block : Option Nat}

theorem gain_answer (s : State) (a : Answer) (hs : List (String × Handle)) :
    ({ s with answer := a } : State).gain hs = { s.gain hs with answer := a } := by
  induction hs with
  | nil => rfl
  | cons e hs ih => simp only [gain, ih]

theorem get?_gain_of_notMem (hname : name ∉ hs.map Prod.fst) :
    (s.gain hs).slots.get? name = s.slots.get? name := by
  induction hs with
  | nil => rfl
  | cons e hs ih =>
    simp only [List.map_cons, List.mem_cons, not_or] at hname
    rw [gain, Slots.get?_put_of_ne _ _ hname.1, ih hname.2]

theorem sustains_gain (hs' : s.heap.Sustains h) (hs : List (String × Handle)) :
    (s.gain hs).heap.Sustains h := by
  induction hs with
  | nil => exact hs'
  | cons e hs ih => exact ih.withUnit e.2

/-- It does not matter in which order handles of one block come. -/
theorem gain_perm (hperm : hs.Perm hs') (hnodup : (hs.map Prod.fst).Nodup)
    (hblock : ∀ e ∈ hs, e.2.block = block) : s.gain hs = s.gain hs' := by
  induction hperm with
  | nil => rfl
  | cons e hperm ih =>
    rw [gain, gain, ih hnodup.of_cons fun e he => hblock e (List.mem_cons_of_mem _ he)]
  | swap e e' hs =>
    have hne : e.1 ≠ e'.1 := by
      intro heq
      simp [heq] at hnodup
    have hsame : e.2.block = e'.2.block := by
      rw [hblock e (by simp), hblock e' (by simp)]
    simp only [gain]
    rw [Heap.withUnit_comm _ hsame, Slots.put_comm _ _ _ hne]
  | trans hperm hperm' ih ih' =>
    rw [ih hnodup hblock, ih' ((hperm.map Prod.fst).nodup_iff.1 hnodup)
      fun e he => hblock e (hperm.mem_iff.2 he)]

end State

/-! ### Legs and routes -/

/-- One leg of a route, from a handle of kind `k` to one of kind `j`. -/
inductive Leg : Kind → Kind → Type
  | clone {k : Kind} : Leg k k
  | downgrade : Leg .strong .weak
  | lock : Leg .weak .strong
  /-- The handle itself is projected. -/
  | project {k : Kind} (f : Link) : Leg k k
  /-- A clone of the handle is projected. -/
  | projectClone {k : Kind} (f : Link) : Leg k k

/-- The legs of a route, each with the slot that its handle goes into. -/
inductive Route : Kind → Kind → Type
  | nil {k : Kind} : Route k k
  | cons {k j i : Kind} (leg : Leg k j) (target : String) (route : Route j i) : Route k i

/-- Whatever waits below, what a command comes to ends in the state `s`. -/
def Machine.EndsIn (next : State × List Task) (s : State) : Prop :=
  ∀ rest, WorksOff rest (run next rest) { state := s, stack := rest }

namespace Leg

/-- Whether the handle stays that a leg starts from. -/
def keeps {k j : Kind} : Leg k j → Bool
  | .project _ => false
  | _ => true

/-- The links of the chain that a leg passes. -/
def links {k j : Kind} : Leg k j → List Link
  | .project f | .projectClone f => [f]
  | _ => []

/-- What a leg comes to that starts from the handle `h` in the slot `name`. -/
def begin {k j : Kind} (leg : Leg k j) (s : State) (name target : String) (h : Handle) :
    State × List Task :=
  match leg with
  | .clone => s.begin (.clone name target)
  | .downgrade => s.begin (.downgrade name target)
  | .lock => s.begin (.lock name target)
  | .project f => s.projectBy name target h f.function f.ty
  | .projectClone f => s.projectCloneBy target h f.function f.ty

variable {k j : Kind} {leg : Leg k j} {s : State} {name target : String} {h g : Handle}

/-- A leg that keeps its handle makes another one, with a unit of its own. -/
theorem begin_of_keeps (hkeeps : leg.keeps) (hk : h.kind = k) (hg : s.slots.get? name = some h)
    (hv : s.slots.get? target = none) (hs : s.heap.Sustains h)
    (hprojected : h.projected leg.links = .ok g) (hroom : s.heap.HasRoom { g with kind := j }) :
    ∃ a, leg.begin s name target h = (({ s with
      heap := s.heap.withUnit { g with kind := j } } : State).put target
        { g with kind := j }).reply a := by
  have hroom' : s.heap.HasRoom { h with kind := j } :=
    fun l b hl => hroom l b ((Handle.block_of_projected hprojected).trans hl)
  cases leg with
  | clone =>
    obtain rfl : h = g := by simpa [links, Handle.projected_nil] using hprojected
    have hshare := hs.share_eq hroom'
    subst hk
    refine ⟨.done, ?_⟩
    rw [begin, State.begin_clone hg hv, Heap.clone, hshare]
    rfl
  | downgrade =>
    obtain rfl : h = g := by simpa [links, Handle.projected_nil] using hprojected
    have hshare := hs.share_eq hroom'
    refine ⟨.done, ?_⟩
    rw [begin, State.begin_downgrade hg hv hk, Heap.downgrade, hshare]
    rfl
  | lock =>
    obtain rfl : h = g := by simpa [links, Handle.projected_nil] using hprojected
    refine ⟨.locked h.pointer.isNone, ?_⟩
    rw [begin, State.begin_lock hg hv hk, hs.lock_eq hroom']
    rfl
  | project => cases hkeeps
  | projectClone f =>
    obtain ⟨pointer, hpointer, rfl⟩ := Handle.projected_singleton.1 hprojected
    have hshare := hs.share_eq hroom'
    subst hk
    refine ⟨.done, ?_⟩
    rw [begin, State.projectCloneBy, Heap.clone, hshare]
    simp only [Handle.pointedBy] at hpointer ⊢
    rw [hpointer]
    rfl

/-- A leg that does not keep its handle makes it another one, whose unit is the same. -/
theorem begin_of_not_keeps (hkeeps : leg.keeps = false) (hk : h.kind = k)
    (hprojected : h.projected leg.links = .ok g) : leg.begin s name target h =
      ((s.vacate name).put target { g with kind := j }).reply .done := by
  cases leg with
  | project f =>
    obtain ⟨pointer, hpointer, rfl⟩ := Handle.projected_singleton.1 hprojected
    subst hk
    rw [begin, State.projectBy, hpointer]
  | _ => cases hkeeps

/-- The projections that commands name are legs, and they stay the same as long as no resource
changes. -/
theorem begin_projection {heap : Heap} (hheap : s.heap.resources = heap.resources)
    {f : Projection} {ty : Ty} (k : Kind) (hg : s.slots.get? name = some h)
    (hv : s.slots.get? target = none) (hty : f.target h.kind h.ty = some ty) :
    (Leg.project (k := k) ⟨f.function heap, ty⟩).begin s name target h =
        s.begin (.project name target (some f)) ∧
      (Leg.projectClone (k := k) ⟨f.function heap, ty⟩).begin s name target h =
        s.begin (.projectClone name target (some f)) := by
  rw [← Projection.function_congr hheap, State.begin_project hg (fun _ => hv) hty,
    State.begin_projectClone hg hv hty]
  exact ⟨(State.project_eq ..).symm, (State.projectClone_eq ..).symm⟩

end Leg

namespace Machine

/-- A command that answers at once ends at once. -/
theorem endsIn_reply (s : State) (a : Answer) : EndsIn (s.reply a) { s with answer := a } :=
  fun _ => .step (.settle [] (.answer a)) [] rfl (not_aborted_of_running rfl)
    (.done rfl (not_aborted_of_running rfl))

/-- So does the drop of a handle whose unit is not the last one. -/
theorem endsIn_drop {s s' : State} {h : Handle} (hback : s.giveBack h = (s', [])) :
    EndsIn (s, [.drop h, .settle [] (.answer .done)]) { s' with answer := .done } := by
  intro rest
  refine .step (.drop h) [.settle [] (.answer .done)] rfl (not_aborted_of_running rfl) ?_
  have hstep : (run (s, [.drop h, .settle [] (.answer .done)]) rest).step =
      run (s'.reply .done) rest := by
    simp only [run, List.cons_append, List.nil_append, step, advance, hback]
    rfl
  rw [hstep]
  exact endsIn_reply s' .done rest

end Machine

namespace Leg

variable {k j : Kind} {leg : Leg k j} {s : State} {name target : String} {h g : Handle}
  {left : List (String × Handle)}

/-- A leg that keeps its handle ends with one handle more. -/
theorem exists_endsIn (hkeeps : leg.keeps) (hk : h.kind = k) (hs : s.heap.Sustains h)
    (hv : (s.gain ((name, h) :: left)).slots.get? target = none)
    (hprojected : h.projected leg.links = .ok g)
    (hroom : (s.gain ((name, h) :: left)).heap.HasRoom { g with kind := j }) :
    ∃ a, Machine.EndsIn (leg.begin (s.gain ((name, h) :: left)) name target h)
      (({ s with answer := a } : State).gain
        ((target, { g with kind := j }) :: (name, h) :: left)) := by
  obtain ⟨a, hbegin⟩ := begin_of_keeps hkeeps hk (Slots.get?_put_self ..) hv
    (State.sustains_gain hs _) hprojected hroom
  refine ⟨a, ?_⟩
  rw [hbegin, s.gain_answer a]
  exact Machine.endsIn_reply _ a

/-- A leg that does not keep its handle ends with another one in its place. -/
theorem endsIn_of_not_keeps (target : String) (hkeeps : leg.keeps = false) (hk : h.kind = k)
    (hv : (s.gain left).slots.get? name = none) (hprojected : h.projected leg.links = .ok g) :
    Machine.EndsIn (leg.begin (s.gain ((name, h) :: left)) name target h)
      (({ s with answer := .done } : State).gain ((target, { g with kind := j }) :: left)) ∧
      (s.gain ((target, { g with kind := j }) :: left)).heap =
        (s.gain ((name, h) :: left)).heap := by
  have hbegin : leg.begin (s.gain ((name, h) :: left)) name target h = _ :=
    begin_of_not_keeps hkeeps hk hprojected
  have hheap : (s.gain ((target, { g with kind := j }) :: left)).heap =
      (s.gain ((name, h) :: left)).heap := by
    have hsame : g.block = h.block := Handle.block_of_projected hprojected
    refine Heap.withUnit_congr _ ?_ hsame
    cases leg with
    | project => exact hk.symm
    | _ => cases hkeeps
  have hmoved : ((s.gain ((name, h) :: left)).vacate name).put target { g with kind := j } =
      s.gain ((target, { g with kind := j }) :: left) := by
    simp only [State.vacate, State.put, State.gain, Slots.erase_put_of_vacant hv] at hheap ⊢
    rw [← hheap]
  refine ⟨?_, hheap⟩
  rw [hbegin, hmoved, s.gain_answer .done]
  exact Machine.endsIn_reply _ .done

end Leg

/-- There is room for the units that are added to the block of the handle `h`, so many of each
kind. -/
def Heap.HasRoomFor (heap : Heap) (h : Handle) (added : Kind → Nat) : Prop :=
  ∀ l b, h.block = some l → heap.blocks.get? l = some b →
    ∀ k, added k = 0 ∨ b.counts.get k + added k ≤ unitLimit + 1

namespace Route

/-- The links of the chain that a route passes. -/
def chain {k j : Kind} : Route k j → List Link
  | .nil => []
  | .cons leg _ route => leg.links ++ route.chain

/-- The slots that the handles on the way go into. -/
def targets {k j : Kind} : Route k j → List String
  | .nil => []
  | .cons _ target route => target :: route.targets

/-- The slot at the end of a route from the slot `name`. -/
def final {k j : Kind} (name : String) : Route k j → String
  | .nil => name
  | .cons _ target route => route.final target

/-- The slots whose handles stay on the way of a route from the slot `name`. -/
def kept {k j : Kind} (name : String) : Route k j → List String
  | .nil => []
  | .cons leg target route => (if leg.keeps then [name] else []) ++ route.kept target

/-- How many units of a kind a route adds. -/
def added {k j : Kind} : Route k j → Kind → Nat
  | .nil, _ => 0
  | .cons (j := j) leg _ route, i => route.added i + if leg.keeps ∧ i = j then 1 else 0

/-- A route is taken from the slot `name`, one leg after the other. -/
inductive Travels : {k j : Kind} → Route k j → State → String → State → Prop
  | nil {k : Kind} (s : State) (name : String) : Travels (.nil (k := k)) s name s
  | cons {k j i : Kind} {leg : Leg k j} {target : String} {route : Route j i} {s s' s'' : State}
      {name : String} {h : Handle} (hg : s.slots.get? name = some h)
      (hleg : Machine.EndsIn (leg.begin s name target h) s')
      (hroute : route.Travels s' target s'') :
    Travels (.cons leg target route) s name s''

/-- There is room for the unit of the first leg, and then for those of the others. -/
theorem hasRoomFor_cons {k j i : Kind} {leg : Leg k j} {target : String} {route : Route j i}
    {heap : Heap} {h g : Handle} (hkeeps : leg.keeps)
    (hroom : heap.HasRoomFor h (cons leg target route).added) (hblock : g.block = h.block)
    (hkind : g.kind = j) : heap.HasRoom g ∧ (heap.withUnit g).HasRoomFor g route.added := by
  simp only [Heap.HasRoomFor, added, hkeeps, true_and] at hroom
  constructor
  · intro l b hl hb
    have hfits := hroom l b (hblock ▸ hl) hb g.kind
    rw [if_pos hkind] at hfits
    omega
  · intro l b' hl hb' i
    rw [Heap.get?_withUnit, if_pos hl, Option.map_eq_some_iff] at hb'
    obtain ⟨b, hb, rfl⟩ := hb'
    have hfits := hroom l b (hblock ▸ hl) hb i
    rw [Counts.get_modify, hkind]
    by_cases hi : i = j
    · simp only [if_pos hi] at hfits ⊢
      omega
    · simpa only [if_neg hi, Nat.add_zero] using hfits

variable {k j : Kind} {h h' : Handle}

/-- What comes out of a route depends on the handle and the chain only. The handles that are kept on
its way stay, and nothing else changes. -/
theorem exists_travels (route : Route k j) (s : State) (name : String)
    (left : List (String × Handle)) (hk : h.kind = k) (hs : s.heap.Sustains h)
    (hprojected : h.projected route.chain = .ok h')
    (hnodup : (name :: (route.targets ++ left.map Prod.fst)).Nodup)
    (hvacant : ∀ x ∈ name :: (route.targets ++ left.map Prod.fst), s.slots.get? x = none)
    (hblock : ∀ e ∈ left, e.2.block = h.block)
    (hroom : (s.gain ((name, h) :: left)).heap.HasRoomFor h route.added) :
    ∃ a left', route.Travels (s.gain ((name, h) :: left)) name
        (({ s with answer := a } : State).gain
          ((route.final name, { h' with kind := j }) :: left')) ∧
      (left'.map Prod.fst).Perm (route.kept name ++ left.map Prod.fst) ∧
      ∀ e ∈ left', e.2.block = h.block := by
  induction route generalizing s left name h h' with
  | nil =>
    subst hk
    obtain rfl : h = h' := by simpa [chain, Handle.projected_nil] using hprojected
    exact ⟨s.answer, left, .nil _ _, .refl _, hblock⟩
  | @cons k i j leg target route ih =>
    obtain ⟨g, hg, hrest⟩ := bind_eq_ok.1 ((Handle.projected_append ..).symm.trans hprojected)
    have hsame : g.block = h.block := Handle.block_of_projected hg
    have hpointer : h.pointer = none → g.pointer = none := Handle.pointer_of_projected hg
    have hsustains : s.heap.Sustains { g with kind := i } := hs.congr hsame hpointer
    have hprojected' := Handle.projected_withKind i hrest
    have hperm : (target :: (route.targets ++ name :: left.map Prod.fst)).Perm
        (name :: (target :: route.targets ++ left.map Prod.fst)) :=
      (List.perm_middle.cons target).trans (.swap ..)
    have hnodup' := hperm.nodup_iff.2 hnodup
    have hvacant' : ∀ x ∈ target :: (route.targets ++ name :: left.map Prod.fst),
        s.slots.get? x = none := fun x hx => hvacant x (hperm.mem_iff.1 hx)
    have hnotMem : target ∉ ((name, h) :: left).map Prod.fst := fun hmem =>
      (List.nodup_cons.1 hnodup').1 (List.mem_append_right _ hmem)
    have hslot : (s.gain ((name, h) :: left)).slots.get? name = some h := Slots.get?_put_self ..
    have hv := (State.get?_gain_of_notMem hnotMem).trans (hvacant' target List.mem_cons_self)
    cases hkeeps : leg.keeps with
    | true =>
      have hroom' := hasRoomFor_cons (g := { g with kind := i }) hkeeps hroom hsame rfl
      obtain ⟨a, hleg⟩ := Leg.exists_endsIn hkeeps hk hs hv hg hroom'.1
      have hblock' : ∀ e ∈ (name, h) :: left, e.2.block = g.block := by
        intro e he
        rw [hsame]
        rcases List.mem_cons.1 he with rfl | he
        · rfl
        · exact hblock e he
      obtain ⟨a', left', htravels, hleft, hblocks⟩ := ih { s with answer := a } target
        ((name, h) :: left) rfl
        hsustains hprojected' hnodup' hvacant' hblock' (by rw [s.gain_answer a]; exact hroom'.2)
      refine ⟨a', left', .cons hslot hleg htravels, ?_, fun e he => (hblocks e he).trans hsame⟩
      simpa [kept, hkeeps] using hleft.trans List.perm_middle
    | false =>
      have hvname : (s.gain left).slots.get? name = none := by
        refine (State.get?_gain_of_notMem ?_).trans (hvacant name List.mem_cons_self)
        exact fun hmem => (List.nodup_cons.1 hnodup).1 (List.mem_append_right _ hmem)
      obtain ⟨hleg, hheap⟩ := Leg.endsIn_of_not_keeps target hkeeps hk hvname hg
      have hroom' : (s.gain ((target, { g with kind := i }) :: left)).heap.HasRoomFor
          { g with kind := i } route.added := by
        rw [hheap]
        exact fun l b hl => by simpa [added, hkeeps] using hroom l b (hsame ▸ hl)
      have hsublist : (target :: (route.targets ++ left.map Prod.fst)).Sublist
          (name :: (target :: route.targets ++ left.map Prod.fst)) := List.sublist_cons_self ..
      obtain ⟨a', left', htravels, hleft, hblocks⟩ := ih { s with answer := .done } target _ rfl
        hsustains hprojected' (hnodup.sublist hsublist) (fun x hx => hvacant x (hsublist.mem hx))
        (fun e he => (hblock e he).trans hsame.symm) (by rw [s.gain_answer .done]; exact hroom')
      refine ⟨a', left', .cons hslot hleg htravels, ?_, fun e he => (hblocks e he).trans hsame⟩
      simpa [kept, hkeeps] using hleft

end Route

/-! ### Handles on the way are dropped -/

namespace State

/-- Handles are dropped, one after the other, and nothing is left to do after each of them. -/
inductive Discards : State → List String → State → Prop
  | nil (s : State) : Discards s [] s
  | cons {s s' s'' : State} {name : String} {names : List String}
      (hdrop : Machine.EndsIn (s.begin (.drop name)) s') (hrest : Discards s' names s'') :
    Discards s (name :: names) s''

variable {s : State} {name final : String} {h g : Handle} {left : List (String × Handle)}
  {order : List String}

/-- A unit that is given back where there are others goes, and that is all. -/
theorem giveBack_unit (hs : s.heap.Sustains g) (hblock : h.block = g.block) (slots : Slots) :
    ({ s with heap := s.heap.withUnit h, slots } : State).giveBack h = ({ s with slots }, []) := by
  rcases Option.eq_none_or_eq_some h.block with hl | ⟨l, hl⟩
  · simp only [giveBack, Heap.withUnit, hl]
  · obtain ⟨b, hb, hpos⟩ := hs.block l (hblock ▸ hl)
    rw [Heap.withUnit_of_block hl hb]
    exact giveBack_added (s := { s with slots }) hl hb (hpos h.kind)

/-- One further handle less. -/
theorem endsIn_drop_gain (hs : s.heap.Sustains g) (hblock : h.block = g.block)
    (hv : (s.gain left).slots.get? name = none) :
    Machine.EndsIn ((s.gain ((name, h) :: left)).begin (.drop name))
      (({ s with answer := .done } : State).gain left) := by
  have hback := giveBack_unit (sustains_gain hs left) hblock (s.gain left).slots
  rw [begin_drop (Slots.get?_put_self ..), s.gain_answer .done]
  simp only [vacate, gain, Slots.erase_put_of_vacant hv]
  exact Machine.endsIn_drop hback

/-- In whatever order the handles on the way are dropped, the one at the end is what remains. -/
theorem exists_discards (hs : s.heap.Sustains g) (hperm : order.Perm (left.map Prod.fst))
    (hnodup : (final :: left.map Prod.fst).Nodup)
    (hvacant : ∀ x ∈ final :: left.map Prod.fst, s.slots.get? x = none)
    (hblock : ∀ e ∈ left, e.2.block = g.block) :
    ∃ a, (s.gain ((final, g) :: left)).Discards order
      (({ s with answer := a } : State).gain [(final, g)]) := by
  induction order generalizing s left with
  | nil =>
    obtain rfl : left = [] := List.map_eq_nil_iff.1 (List.nil_perm.1 hperm)
    exact ⟨s.answer, .nil _⟩
  | cons name order ih =>
    obtain ⟨⟨slot, h⟩, he, hslot⟩ := List.mem_map.1 (hperm.mem_iff.1 List.mem_cons_self)
    obtain rfl : slot = name := hslot
    have hleft := List.perm_cons_erase he
    generalize left.erase (slot, h) = left' at hleft
    -- the handle that is dropped next may have come last
    have hlast : ((final, g) :: left).Perm ((slot, h) :: (final, g) :: left') :=
      (hleft.cons _).trans (.swap ..)
    have hsame : ∀ e ∈ (final, g) :: left, e.2.block = g.block := by
      intro e he
      rcases List.mem_cons.1 he with rfl | he
      · rfl
      · exact hblock e he
    have hgain := gain_perm (s := s) hlast hnodup hsame
    have hnames : (final :: left.map Prod.fst).Perm (slot :: final :: left'.map Prod.fst) :=
      hlast.map Prod.fst
    obtain ⟨hnotMem, hnodup'⟩ := List.nodup_cons.1 (hnames.nodup_iff.1 hnodup)
    have hv : (s.gain ((final, g) :: left')).slots.get? slot = none :=
      (get?_gain_of_notMem hnotMem).trans (hvacant slot (hnames.mem_iff.2 List.mem_cons_self))
    obtain ⟨a, hrest⟩ := ih (s := { s with answer := .done }) hs
      (hperm.trans (hleft.map Prod.fst)).cons_inv hnodup'
      (fun x hx => hvacant x (hnames.mem_iff.2 (List.mem_cons_of_mem _ hx)))
      (fun e he => hblock e (hleft.mem_iff.2 (List.mem_cons_of_mem _ he)))
    rw [hgain]
    exact ⟨a, .cons (endsIn_drop_gain hs (hblock _ he) hv) hrest⟩

end State

/-! ### The main result -/

namespace Route

/-- Whether the handle stays that a route starts from. -/
def spares {k j : Kind} : Route k j → Bool
  | .nil => false
  | .cons leg _ _ => leg.keeps

/-- The slots whose handles stay on the way. -/
def intermediates {k j : Kind} : Route k j → List String
  | .nil => []
  | .cons _ target route => route.kept target

/-- A route for a chain, in the state `s`, from the owner `h`, which stays. It may pass the chain
link by link, or several links at once. Its handles go into vacant slots, and no counter
overflows. -/
structure Fits (route : Route .strong .strong) (s : State) (h : Handle) (chain : List Link) :
    Prop where
  spares : route.spares
  /-- Without a pointer any functions will do, for none is called. -/
  compose_eq : h.pointer ≠ none → compose route.chain = compose chain
  endTy_eq : endTy h.ty route.chain = endTy h.ty chain
  nodup : route.targets.Nodup
  vacant : ∀ x ∈ route.targets, s.slots.get? x = none
  room : s.heap.HasRoomFor h route.added

/-- A route comes to the handle `g`. Once the handles on its way are dropped, in whatever order, one
handle has come, with its unit, and that is all. -/
def Arrives (route : Route .strong .strong) (s : State) (name : String) (g : Handle) : Prop :=
  ∃ s', route.Travels s name s' ∧ s'.slots.get? (route.final name) = some g ∧
    ∀ order, order.Perm route.intermediates →
      ∃ a, s'.Discards order (({ s with answer := a } : State).gain [(route.final name, g)])

/-- What stays on the way, and what is at the end, is in slots of the route. -/
theorem sublist_targets {k j : Kind} (route : Route k j) (name : String) :
    (route.kept name ++ [route.final name]).Sublist (name :: route.targets) := by
  induction route generalizing name with
  | nil => exact .refl _
  | cons leg target route ih =>
    rw [kept, final, targets, List.append_assoc]
    split
    · exact (ih target).cons_cons name
    · exact (ih target).cons name

theorem final_mem_targets {k j : Kind} (route : Route k j) (name : String)
    (hspares : route.spares) : route.final name ∈ route.targets := by
  cases route with
  | nil => cases hspares
  | cons leg target route => exact (route.sublist_targets target).mem (by simp [final])

variable {route : Route .strong .strong} {s : State} {name : String} {h owner : Handle}
  {chain : List Link}

/-- A route makes of a handle what the chain does. -/
theorem Fits.projected_eq (hfits : route.Fits s h chain) :
    h.projected route.chain = h.projected chain := by
  by_cases hnone : h.pointer = none
  · rw [Handle.projected_of_null hnone, Handle.projected_of_null hnone, hfits.endTy_eq]
  · rw [Handle.projected, Handle.projected, hfits.compose_eq hnone, hfits.endTy_eq]

theorem Fits.arrives (hfits : route.Fits s h chain) (hs : s.heap.Sustains h)
    (hg : s.slots.get? name = some h) (hk : h.kind = .strong)
    (hprojected : h.projected chain = .ok owner) : route.Arrives s name owner := by
  have hprojected' := hfits.projected_eq.trans hprojected
  obtain ⟨hspares, -, -, hnodup, hvacant, hroom⟩ := hfits
  cases route with
  | nil => cases hspares
  | @cons _ j _ leg target route =>
    obtain ⟨g, hleg, hrest⟩ := bind_eq_ok.1 ((Handle.projected_append ..).symm.trans hprojected')
    have hsame : g.block = h.block := Handle.block_of_projected hleg
    have hpointer : h.pointer = none → g.pointer = none := Handle.pointer_of_projected hleg
    have hsustains : s.heap.Sustains { g with kind := j } := hs.congr hsame hpointer
    have hrest' := Handle.projected_withKind j hrest
    have hroom' := hasRoomFor_cons (g := { g with kind := j }) hspares hroom hsame rfl
    obtain ⟨a, hbegin⟩ := Leg.begin_of_keeps hspares hk hg (hvacant target List.mem_cons_self) hs
      hleg hroom'.1
    -- the first leg leaves the owner where it is, and the others start from the handle it made
    obtain ⟨a', left, htravels, hleft, hblocks⟩ := route.exists_travels { s with answer := a }
      target [] rfl hsustains hrest' (by simpa [targets] using hnodup)
      (by simpa [targets] using hvacant) (by simp) hroom'.2
    have howner : ({ owner with kind := .strong } : Handle) = owner := by
      obtain ⟨pointer, -, rfl⟩ := Handle.projected_eq_ok.1 hprojected
      rw [← hk]
    rw [howner] at htravels
    have hleg : Machine.EndsIn (leg.begin s name target h)
        (({ s with answer := a } : State).gain [(target, { g with kind := j })]) := by
      rw [hbegin]
      exact Machine.endsIn_reply _ a
    refine ⟨_, .cons hg hleg htravels, Slots.get?_put_self .., ?_⟩
    intro order hperm
    have hleft' : (left.map Prod.fst).Perm (route.kept target) := by simpa using hleft
    have hnames : (route.final target :: left.map Prod.fst).Perm
        (route.kept target ++ [route.final target]) :=
      (hleft'.cons _).trans (List.perm_append_singleton _ _).symm
    have hsublist := route.sublist_targets target
    have hsame' : g.block = owner.block := (Handle.block_of_projected hrest).symm
    refine State.exists_discards (s := { s with answer := a' }) (hs.congr ?_ ?_)
      (hperm.trans hleft'.symm) (hnames.nodup_iff.2 (hnodup.sublist hsublist))
      (fun x hx => hvacant x (hsublist.mem (hnames.mem_iff.1 hx)))
      fun e he => (hblocks e he).trans hsame'
    · exact Handle.block_of_projected hprojected
    · exact Handle.pointer_of_projected hprojected

end Route

/-- Where the routes of a chain end that start from the owner `h` in the slot `name`. -/
structure State.Commutes (s : State) (name : String) (h : Handle) (chain : List Link)
    (owner : Handle) : Prop where
  /-- The projections that commands name are legs of routes, in every state with these resources. -/
  named : ∀ (t : State) (slot target : String) (g : Handle) (f : Projection) (ty : Ty) (k : Kind),
    t.heap.resources = s.heap.resources → t.slots.get? slot = some g →
    t.slots.get? target = none → f.target g.kind g.ty = some ty →
    (Leg.project (k := k) ⟨f.function s.heap, ty⟩).begin t slot target g =
        t.begin (.project slot target (some f)) ∧
      (Leg.projectClone (k := k) ⟨f.function s.heap, ty⟩).begin t slot target g =
        t.begin (.projectClone slot target (some f))
  /-- The owner at the end has the block of the one at the start. -/
  block : owner.block = h.block
  pointer : h.pointedBy (compose chain) = .ok owner.pointer
  null : h.pointer = none → owner.pointer = none
  /-- That is where a projection by the composition of the chain ends. -/
  once : ∀ target, s.slots.get? target = none → s.heap.HasRoom h →
    ∃ a, Machine.EndsIn (s.projectCloneBy target h (compose chain) owner.ty)
      (({ s with answer := a } : State).gain [(target, owner)])
  arrives : ∀ route : Route .strong .strong, route.Fits s h chain → route.Arrives s name owner
  /-- When two routes are taken, the owners at their ends are the same. -/
  agree : ∀ (route route' : Route .strong .strong) (a : Answer), route.Fits s h chain →
    let s' := ({ s with answer := a } : State).gain [(route.final name, owner)]
    route'.Fits s' h chain → route'.Arrives s' name owner ∧ ∀ a',
      let t := ({ s' with answer := a' } : State).gain [(route'.final name, owner)]
      t.begin (.sameAddress (route.final name) (route'.final name)) = t.reply (.flag true) ∧
        t.begin (.sameOwner (route.final name) (route'.final name)) = t.reply (.flag true) ∧
        t.heap.read owner = s.heap.read owner

theorem Heap.read_withUnit (heap : Heap) (g h : Handle) :
    (heap.withUnit g).read h = heap.read h := by
  simp only [read, resources_withUnit]

namespace State

variable {s : State} {name : String} {h owner : Handle} {chain : List Link}

theorem commutes (hs : s.heap.Sustains h) (hg : s.slots.get? name = some h)
    (hk : h.kind = .strong) (hprojected : h.projected chain = .ok owner) :
    s.Commutes name h chain owner := by
  have hblock : owner.block = h.block := Handle.block_of_projected hprojected
  have hkind : owner.kind = .strong := by
    obtain ⟨pointer, -, rfl⟩ := Handle.projected_eq_ok.1 hprojected
    exact hk
  have harrives : ∀ route : Route .strong .strong, route.Fits s h chain →
      route.Arrives s name owner := fun route hfits => hfits.arrives hs hg hk hprojected
  constructor
  case named =>
    intro t slot target g f ty k hheap hslot hv hty
    exact Leg.begin_projection hheap k hslot hv hty
  case block => exact hblock
  case pointer =>
    obtain ⟨pointer, hpointer, rfl⟩ := Handle.projected_eq_ok.1 hprojected
    exact hpointer
  case null => exact Handle.pointer_of_projected hprojected
  case once =>
    intro target hv hroom
    obtain ⟨pointer, hpointer, rfl⟩ := Handle.projected_eq_ok.1 hprojected
    have hshare := hs.share_eq (k := h.kind) hroom
    refine ⟨.done, ?_⟩
    rw [projectCloneBy, Heap.clone, hshare]
    simp only [Handle.pointedBy] at hpointer ⊢
    rw [hpointer]
    exact Machine.endsIn_reply _ .done
  case arrives => exact harrives
  case agree =>
    intro route route' a hfits s' hfits'
    have hfinal : (s.slots.get? (route.final name)) = none :=
      hfits.vacant _ (route.final_mem_targets name hfits.spares)
    have hne : name ≠ route.final name := by
      intro heq
      rw [← heq, hg] at hfinal
      cases hfinal
    have howner : s'.slots.get? (route.final name) = some owner := Slots.get?_put_self ..
    have hfinal' : s'.slots.get? (route'.final name) = none :=
      hfits'.vacant _ (route'.final_mem_targets name hfits'.spares)
    have hne' : route.final name ≠ route'.final name := by
      intro heq
      rw [← heq, howner] at hfinal'
      cases hfinal'
    refine ⟨hfits'.arrives (hs.withUnit owner) ?_ hk hprojected, ?_⟩
    · exact (Slots.get?_put_of_ne _ _ hne).trans hg
    · intro a' t
      have hslot : t.slots.get? (route.final name) = some owner :=
        (Slots.get?_put_of_ne _ _ hne').trans howner
      have hslot' : t.slots.get? (route'.final name) = some owner := Slots.get?_put_self ..
      refine ⟨?_, ?_, ?_⟩
      · rw [begin_sameAddress hslot hslot' hkind hkind rfl, decide_eq_true rfl]
      · rw [begin_sameOwner hslot hslot' rfl rfl, decide_eq_true rfl]
      · exact (Heap.read_withUnit ..).trans (Heap.read_withUnit ..)

end State

namespace Machine

variable {m : Machine} {name : String} {h owner : Handle} {chain : List Link}

/-- The block of an owner has units of both kinds. -/
theorem sustains_of_mem (hm : m.Reachable) (hh : h ∈ m.handles) (hk : h.kind = .strong) :
    m.state.heap.Sustains h := by
  have hL : m.ledger.Sound := ReachableBy.sound hm
  refine ⟨(hL.supports h hh).pointer_eq_none, ?_⟩
  intro l hl
  obtain ⟨b, hb⟩ := hL.exists_block hh hl
  refine ⟨b, hb, ?_⟩
  intro k
  cases k with
  | strong => exact hk ▸ hL.one_le_count hh hl hb
  | weak => exact (hL.accounts l b hb).weak_pos

/-- Whatever the chain, and whatever the routes, they all end alike. -/
theorem commutes_of_reachable (hm : m.Reachable) (hg : m.state.slots.get? name = some h)
    (hk : h.kind = .strong) (hprojected : h.projected chain = .ok owner) :
    m.state.Commutes name h chain owner :=
  State.commutes (sustains_of_mem hm (mem_handles_of_slot hg) hk) hg hk hprojected

/-- A record has one owner. -/
def unrouted : Machine :=
  performAll {} [
    .create "origin" .record ⟨.record { x := 17, xs := #v[2, 3, 5, 7] }, rfl⟩ .abort false]

/-- From a record to its row. -/
def toRow : Link := ⟨Projection.row.function unrouted.state.heap, .list⟩

/-- From a row to one of its integers. -/
def toItem : Link := ⟨(Projection.item 2).function unrouted.state.heap, .int⟩

/-- A route that owners take. -/
def inside : Route .strong .strong :=
  .cons (.projectClone toRow) "row" (.cons (.project toItem) "item" .nil)

/-- A route that observers take, the last of which is locked. -/
def outside : Route .strong .strong :=
  .cons .downgrade "observer" (.cons (.project toRow) "seen"
    (.cons (.projectClone toItem) "found" (.cons .lock "locked" .nil)))

/-- Both routes come to the same owner, which sees an integer of the row. -/
theorem commutes_unrouted : unrouted.Reachable ∧ ∃ h owner,
    unrouted.state.slots.get? "origin" = some h ∧ h.projected [toRow, toItem] = .ok owner ∧
    unrouted.state.Commutes "origin" h [toRow, toItem] owner ∧
    inside.Arrives unrouted.state "origin" owner ∧
    outside.Arrives unrouted.state "origin" owner ∧
    outside.intermediates = ["seen", "found"] ∧
    unrouted.state.heap.read owner = some (.int 5) := by
  have hreachable : unrouted.Reachable :=
    reachableBy_performAll .refl (Command.allIn_of_forall (fun _ => trivial) _)
  let h : Handle := ⟨.strong, .record, some ⟨.resource 1, .whole⟩, some 1⟩
  let owner : Handle := ⟨.strong, .int, some ⟨.resource 1, .item .field 2⟩, some 1⟩
  have hg : unrouted.state.slots.get? "origin" = some h := rfl
  have hprojected : h.projected [toRow, toItem] = .ok owner := rfl
  have hcommutes := commutes_of_reachable hreachable hg rfl hprojected
  have hroom : ∀ added : Kind → Nat, (∀ k, added k ≤ 4) →
      unrouted.state.heap.HasRoomFor h added := by
    intro added hle l b hl hb k
    obtain rfl : 1 = l := Option.some.inj hl
    obtain rfl : _ = b := Option.some.inj hb
    refine .inr (Nat.le_trans (Nat.add_le_add_left (hle k) _) ?_)
    cases k <;> decide
  have hinside : inside.Fits unrouted.state h [toRow, toItem] :=
    ⟨rfl, fun _ => rfl, rfl, by decide, by decide, hroom _ fun k => by cases k <;> decide⟩
  have houtside : outside.Fits unrouted.state h [toRow, toItem] :=
    ⟨rfl, fun _ => rfl, rfl, by decide, by decide, hroom _ fun k => by cases k <;> decide⟩
  exact ⟨hreachable, h, owner, hg, hprojected, hcommutes, hcommutes.arrives _ hinside,
    hcommutes.arrives _ houtside, rfl, rfl⟩

end Machine

end SharedOwnership
