import SharedOwnership.Proofs.FailedAllocation.Commands
import SharedOwnership.Proofs.Overflow

/-!
# What commands come down to

A command looks up the slots that it names, and then it does one of a few things: it only answers,
makes a handle, moves handles, or leaves handles to be dropped. `Command.Effect` lists these with
what each of them found in the slots, so what is to be shown of all commands is shown of the items
of the list.

## Main definitions

* `Command.names` — the slots that a command names.
* `Command.Effect` — what a command comes down to.

## Main results

* `State.effect_begin` — it comes down to one of these.
-/

namespace SharedOwnership

/-- The slot that a guard looks at. -/
def Guard.name : Guard → String
  | .vacant slot | .occupied slot => slot

namespace Command

/-- The slots that a command names. -/
def names : Command → List String
  | .malformed guards _ => guards.map Guard.name
  | .create target _ _ _ _ | .adopt target _ _ _ _ _ | .empty target _ _ => [target]
  | .clone handle target | .take handle target | .downgrade handle target
  | .lock handle target | .project handle target _ | .projectClone handle target _
  | .unlink handle target _ => [handle, target]
  | .drop handle | .dropOnThread handle | .reset handle | .replace handle _ _ _
  | .read handle _ | .inspect handle | .debug handle _ | .showPointer handle _
  | .churn handle _ _ => [handle]
  | .swap handle other | .assign handle other | .sameAddress handle other
  | .sameOwner handle other | .link handle other | .raceLock handle other => [handle, other]
  | .raceDrop handles => handles
  | .leak _ _ _ | .unleak _ _ _ | .slots => []

/-- What a command may come down to in the state `s`: a new state, and the tasks that remain. -/
inductive Effect (s : State) : Command → State × List Task → Prop
  /-- It answers, and that is all. -/
  | tell (c : Command) (a : Answer) : Effect s c (s.reply a)
  /-- There is no memory for a control block. -/
  | fail {c : Command} {a : Supply} {onFailure : OnFailure} {puts : List (String × Handle)}
      (hfails : c.Fails s a onFailure puts) : Effect s c (s.failedNext a onFailure puts)
  /-- A new block has its owner in a vacant slot. -/
  | adopt {c : Command} {a : Supply} {s' : State} {target : String} (hsupplies : c.Supplies s a)
      (hadopts : s.Adopts a s') (hslots : s'.slots = s.slots)
      (hv : s.slots.get? target = none) (hname : target ∈ c.names) :
    Effect s c ((s'.put target (.adopted a.ty a.content s.heap)).reply .done)
  /-- A new block has its owner in the place of a handle, which is dropped. -/
  | replace {name : String} {h : Handle} {value : Datum} {terms : Terms} {script : List Command}
      {a : Supply} {s' : State} (hsupplies : (Command.replace name value terms script).Supplies s a)
      (hadopts : s.Adopts a s') (hslots : s'.slots = s.slots) (hg : s.slots.get? name = some h) :
    Effect s (.replace name value terms script) (s'.vacate name,
      [.drop h, .settle [(name, .adopted a.ty a.content s.heap)] (.answer .done)])
  | empty (target : String) (kind : Kind) (ty : Ty) (hv : s.slots.get? target = none) :
    Effect s (.empty target kind ty) ((s.put target (.empty kind ty)).reply .done)
  /-- The counter has no room for a further unit. -/
  | overflow {c : Command} {k : Kind} {h : Handle} {heap : Heap} {e : Panic}
      (hasks : (Task.perform c).Asks s k h)
      (hmade : (Task.perform c).make s.heap h k = (heap, .error e)) :
    Effect s c (({ s with heap } : State).reply (.panicked e))
  /-- A further handle goes into a vacant slot. -/
  | obtain {c : Command} {k : Kind} {h new : Handle} {heap : Heap} {target : String}
      (hasks : (Task.perform c).Asks s k h)
      (hmade : (Task.perform c).make s.heap h k = (heap, .ok new))
      (hv : s.slots.get? target = none) (hname : target ∈ c.names) (a : Answer) :
    Effect s c ((({ s with heap } : State).put target new).reply a)
  /-- A further handle takes the place of another one, which is dropped. -/
  | assign {name source : String} {h g new : Handle} {heap : Heap}
      (hpair : s.pair name source = .ok (h, g)) (hmade : s.heap.clone g = (heap, .ok new)) :
    Effect s (.assign name source) ((({ s with heap } : State).vacate name).vacate source,
      [.drop h, .settle [(source, g), (name, new)] (.answer .done)])
  /-- A clone is projected. -/
  | projectClone {name target : String} {f : Projection} {ty : Ty} {h copy : Handle} {heap : Heap}
      {pointer : Option Pointer} (hg : s.slots.get? name = some h)
      (hv : s.slots.get? target = none) (hty : f.target h.kind h.ty = some ty)
      (hmade : s.heap.clone h = (heap, .ok copy)) (hpointer : heap.pointed copy f = .ok pointer) :
    Effect s (.projectClone name target (some f))
      ((({ s with heap } : State).put target { copy with ty, pointer }).reply .done)
  /-- The projection of a clone panics. -/
  | unclone {name target : String} {f : Projection} {ty : Ty} {h copy : Handle} {heap : Heap}
      {e : Panic} (hg : s.slots.get? name = some h) (hv : s.slots.get? target = none)
      (hty : f.target h.kind h.ty = some ty) (hmade : s.heap.clone h = (heap, .ok copy))
      (hpointer : heap.pointed copy f = .error e) :
    Effect s (.projectClone name target (some f))
      ({ s with heap }, [.drop copy, .resume e, .settle [] (.answer .done)])
  /-- A handle is projected. -/
  | project {name target : String} {f : Projection} {ty : Ty} {h : Handle}
      {pointer : Option Pointer} (hg : s.slots.get? name = some h)
      (hv : name ≠ target → s.slots.get? target = none) (hty : f.target h.kind h.ty = some ty)
      (hpointer : s.heap.pointed h f = .ok pointer) :
    Effect s (.project name target (some f))
      (((s.vacate name).put target { h with ty, pointer }).reply .done)
  /-- The projection of a handle panics. -/
  | unproject {name target : String} {f : Projection} {h : Handle} {e : Panic}
      (hg : s.slots.get? name = some h) (hpointer : s.heap.pointed h f = .error e) :
    Effect s (.project name target (some f))
      (s.vacate name, [.drop h, .resume e, .settle [] (.answer .done)])
  | take {name target : String} {h : Handle} (hg : s.slots.get? name = some h)
      (hv : s.slots.get? target = none) :
    Effect s (.take name target) (((s.put name h.emptied).put target h).reply .done)
  | drop {name : String} {h : Handle} (hg : s.slots.get? name = some h) :
    Effect s (.drop name) (s.vacate name, [.drop h, .settle [] (.answer .done)])
  | dropOnThread {name : String} {h : Handle} (hg : s.slots.get? name = some h) :
    Effect s (.dropOnThread name) (s.vacate name, [.spawn [h], .settle [] (.answer .done)])
  | reset {name : String} {h : Handle} (hg : s.slots.get? name = some h) :
    Effect s (.reset name)
      (s.vacate name, [.drop h, .settle [(name, h.emptied)] (.answer .done)])
  | swap {name other : String} {h g : Handle} (hne : name ≠ other)
      (hg : s.slots.get? name = some h) (hg' : s.slots.get? other = some g) :
    Effect s (.swap name other) (((s.put name g).put other h).reply .done)
  | link {name child : String} {h g : Handle} {node : Nat} (hne : child ≠ name)
      (hg : s.slots.get? name = some h) (hg' : s.slots.get? child = some g)
      (hnode : State.nodeOf h = .ok node) :
    Effect s (.link name child) ((({ s with
      heap := s.heap.modifyResource node fun r => { r with links := r.links ++ [g] } } :
        State).vacate child).reply .done)
  | unlink {name target : String} {index : Nat} {h g : Handle} {node : Nat} {x : Resource}
      (hg : s.slots.get? name = some h) (hv : s.slots.get? target = none)
      (hnode : State.nodeOf h = .ok node) (hx : s.heap.resources.get? node = some x)
      (hindex : x.links[index]? = some g) :
    Effect s (.unlink name target index) ((({ s with
      heap := s.heap.modifyResource node fun r => { r with links := r.links.eraseIdx index } } :
        State).put target g).reply .done)
  /-- Units that no handle holds come or go. -/
  | lend {c : Command} {l : Nat} {b b' : Block} (hc : c.label? = some l)
      (hb : s.heap.blocks.get? l = some b) (a : Answer) :
    Effect s c (({ s with heap := s.heap.setBlock l b' } : State).reply a)
  | churn {name : String} {h : Handle} (threads rounds : Nat) (hg : s.slots.get? name = some h)
      (a : Answer) :
    Effect s (.churn name threads rounds)
      (({ s with heap := (s.heap.churn h rounds threads).1 } : State).reply a)
  | raceDrop {names : List String} {s' : State} {hs : List Handle} {reason : Option Refusal}
      (htake : s.takeAll names = (s', hs, reason)) (ts : List Task)
      (hts : ts = [.spawn hs] ∨ ts = hs.map .drop) (a : Answer) :
    Effect s (.raceDrop names) (s', ts ++ [.settle [] (.answer a)])
  /-- There is no observer to lock. -/
  | raceAlone {name observer : String} {h : Handle} (hg : s.slots.get? name = some h)
      (a : Answer) :
    Effect s (.raceLock name observer) (s.vacate name, [.drop h, .settle [] (.answer a)])
  | raceLock {name observer : String} {h w : Handle} (hne : name ≠ observer)
      (hg : s.slots.get? name = some h) (hw : s.slots.get? observer = some w) (t : Task)
      (ht : t = .drop h ∨ t = .spawn [h]) (pending : Pending) :
    Effect s (.raceLock name observer)
      ((s.vacate name).vacate observer, [t, .settle [(observer, w)] pending])

end Command

namespace State

variable {s : State} {c : Command} {next : State × List Task}

theorem requireWeak_eq_ok {h : Handle} {u : Unit} : requireWeak h = .ok u ↔ h.kind = .weak := by
  rw [requireWeak]
  split <;> simp [*]

/-- With memory for its block, a resource is adopted into a vacant slot. -/
theorem effect_adoptInto {a : Supply} {target : String} (hsupplies : c.Supplies s a)
    (hv : s.slots.get? target = none) (hname : target ∈ c.names) (numbered : Nat)
    (onFailure : OnFailure) :
    c.Effect s (({ s with numbered } : State).adoptInto target a.ty a.content a.carried a.action
      onFailure false) := by
  have hadopts := adopts_adoption_false { s with numbered } a
  rw [adoptInto]
  rw [adoption_false] at hadopts ⊢
  exact .adopt hsupplies ⟨hadopts.heap, hadopts.trace⟩ rfl hv hname

/-- With memory for its block, a resource takes the place of what an owner shares. -/
theorem effect_replace {name : String} {h : Handle} {value : Datum} {terms : Terms}
    {script : List Command} {content : Option (Content.Of h.ty)}
    (hsupplies : (Command.replace name value terms script).Supplies s
      ⟨h.ty, content, terms.carried, .scripted (s.numbered + 1) h.ty script terms.panics⟩)
    (hg : s.slots.get? name = some h) (hfails : terms.fails = false) :
    (Command.replace name value terms script).Effect s
      (s.replace name h content terms script) := by
  have hadopts := adopts_adoption_false s.number.1
    ⟨h.ty, content, terms.carried, .scripted (s.numbered + 1) h.ty script terms.panics⟩
  rw [replace, hfails]
  simp only [number] at hadopts ⊢
  rw [adoption_false] at hadopts ⊢
  exact .replace hsupplies ⟨hadopts.heap, hadopts.trace⟩ rfl hg

/-- A handle that was made for a vacant slot goes there; otherwise the panic is the answer. -/
theorem effect_deliver {k : Kind} {h : Handle} {target : String} {answer : Handle → Answer}
    {made : Heap × Except Panic Handle} (hasks : (Task.perform c).Asks s k h)
    (hmade : (Task.perform c).make s.heap h k = made) (hv : s.slots.get? target = none)
    (hname : target ∈ c.names) : c.Effect s (s.deliver target made answer) := by
  obtain ⟨heap, e | new⟩ := made
  · exact .overflow hasks hmade
  · exact .obtain hasks hmade hv hname (answer new)

theorem effect_assign {name source : String} (h : s.plan (.assign name source) = .ok next) :
    (Command.assign name source).Effect s next := by
  simp only [plan, bind_eq_ok] at h
  obtain ⟨⟨h₁, h₂⟩, hpair, h⟩ := h
  split at h
  · next heap e hmade =>
    cases h
    exact .overflow (.assign hpair) hmade
  · next heap new hmade =>
    cases h
    exact .assign hpair hmade

theorem effect_project {name target : String} {f : Option Projection}
    (h : s.plan (.project name target f) = .ok next) :
    (Command.project name target f).Effect s next := by
  obtain ⟨hv, g, f', ty, hg, rfl, hty, rfl⟩ := plan_project h
  unfold project
  simp only
  split
  · next pointer hpointer => exact .project hg hv hty hpointer
  · next e hpointer => exact .unproject hg hpointer

theorem effect_projectClone {name target : String} {h : Handle} {f : Projection} {ty : Ty}
    (hg : s.slots.get? name = some h) (hv : s.slots.get? target = none)
    (hty : f.target h.kind h.ty = some ty) :
    (Command.projectClone name target (some f)).Effect s (s.projectClone target h f ty) := by
  rw [projectClone]
  rcases hmade : s.heap.clone h with ⟨heap, e | copy⟩
  · exact .overflow (.projectClone hg hv hty) hmade
  · simp only
    split
    · next pointer hpointer => exact .projectClone hg hv hty hmade hpointer
    · next e hpointer => exact .unclone hg hv hty hmade hpointer

theorem effect_setBlock {l : Nat} {side : Kind} {reason : Refusal} {f : Block → Option Block}
    (hc : c.label? = some l) (h : s.setBlock l side reason f = .ok next) : c.Effect s next := by
  rw [setBlock] at h
  split at h
  · cases h
  · next b hb =>
    split at h
    · cases h
    · cases h
      exact .lend hc hb _

theorem effect_raceLock {name observer : String} (h : s.plan (.raceLock name observer) = .ok next) :
    (Command.raceLock name observer).Effect s next := by
  simp only [plan, bind_eq_ok, handle_eq_ok] at h
  obtain ⟨g, hg, _, -, h⟩ := h
  split at h
  · cases h
    exact .raceAlone hg _
  · next w hw =>
    rw [handle_eq_ok, vacate, Slots.get?_erase] at hw
    split at hw
    · cases hw
    · next hne =>
      split at h <;> cases h
      · exact .raceLock hne hg hw _ (.inl rfl) _
      · exact .raceLock hne hg hw _ (.inr rfl) _

/-- A command that is not refused, and whose allocation does not fail. -/
theorem effect_plan (hspared : c.failsToAllocate = false) (h : s.plan c = .ok next) :
    c.Effect s next := by
  cases c with
  | malformed guards reason =>
    simp only [plan, bind_eq_ok] at h
    obtain ⟨_, -, h⟩ := h
    cases h
  | create target ty content onFailure fails =>
    obtain rfl : fails = false := hspared
    simp only [plan, bind_eq_ok, vacant_eq_ok] at h
    obtain ⟨_, hv, h⟩ := h
    cases h
    exact effect_adoptInto (.create target ty content onFailure false) hv (by simp [Command.names])
      s.numbered onFailure
  | adopt target ty content onFailure terms script =>
    replace hspared : terms.fails = false := hspared
    simp only [plan, bind_eq_ok, vacant_eq_ok, number, hspared] at h
    obtain ⟨_, hv, h⟩ := h
    cases h
    exact effect_adoptInto (.adopt target ty content onFailure terms script) hv
      (by simp [Command.names]) (s.numbered + 1) onFailure
  | empty target kind ty =>
    simp only [plan, bind_eq_ok, vacant_eq_ok] at h
    obtain ⟨_, hv, h⟩ := h
    cases h
    exact .empty target kind ty hv
  | clone name target =>
    simp only [plan, bind_eq_ok, vacant_eq_ok, handle_eq_ok] at h
    obtain ⟨_, hv, g, hg, h⟩ := h
    cases h
    exact effect_deliver (.clone hg hv) rfl hv (by simp [Command.names])
  | take name target =>
    simp only [plan, bind_eq_ok, vacant_eq_ok, handle_eq_ok] at h
    obtain ⟨_, hv, g, hg, h⟩ := h
    cases h
    exact .take hg hv
  | downgrade name target =>
    simp only [plan, bind_eq_ok, vacant_eq_ok, handle_eq_ok, requireShared_eq_ok] at h
    obtain ⟨_, hv, g, hg, _, hk, h⟩ := h
    cases h
    exact effect_deliver (.downgrade hg hv hk) rfl hv (by simp [Command.names])
  | lock name target =>
    simp only [plan, bind_eq_ok, vacant_eq_ok, handle_eq_ok, requireWeak_eq_ok] at h
    obtain ⟨_, hv, g, hg, _, hk, h⟩ := h
    cases h
    exact effect_deliver (.lock hg hv hk) rfl hv (by simp [Command.names])
  | drop name =>
    simp only [plan, bind_eq_ok, handle_eq_ok] at h
    obtain ⟨g, hg, h⟩ := h
    cases h
    exact .drop hg
  | dropOnThread name =>
    simp only [plan, bind_eq_ok, handle_eq_ok] at h
    obtain ⟨g, hg, h⟩ := h
    cases h
    exact .dropOnThread hg
  | reset name =>
    simp only [plan, bind_eq_ok, handle_eq_ok] at h
    obtain ⟨g, hg, h⟩ := h
    cases h
    exact .reset hg
  | replace name value terms script =>
    simp only [plan, bind_eq_ok, handle_eq_ok] at h
    obtain ⟨g, hg, _, -, h⟩ := h
    split at h
    · cases h
      exact effect_replace (.replaceNull name g terms script hg) hg hspared
    · obtain ⟨_, hcontent, h⟩ := bind_eq_ok.1 h
      cases hvalue : value.content g.ty with
      | error reason => simp [hvalue, Functor.map, Except.map] at hcontent
      | ok content =>
        obtain rfl : some content = _ := by simpa [hvalue, Functor.map, Except.map] using hcontent
        cases h
        exact effect_replace (.replace name g value content terms script hg hvalue) hg hspared
  | swap name other =>
    simp only [plan, bind_eq_ok] at h
    obtain ⟨⟨g, g'⟩, hpair, h⟩ := h
    obtain ⟨hne, hg, hg'⟩ := pair_eq_ok hpair
    cases h
    exact .swap hne hg hg'
  | assign name source => exact effect_assign h
  | sameAddress name other | sameOwner name other =>
    simp only [plan, bind_eq_ok] at h
    obtain ⟨g, -, g', -, h⟩ := h
    split at h
    · cases h
    · obtain ⟨_, -, h⟩ := bind_eq_ok.1 h
      cases h
      exact .tell _ _
  | read name access =>
    simp only [plan, bind_eq_ok] at h
    obtain ⟨g, -, _, -, h⟩ := h
    split at h <;> cases h <;> exact .tell _ _
  | inspect name =>
    simp only [plan, bind_eq_ok] at h
    obtain ⟨g, -, h⟩ := h
    cases h
    exact .tell _ _
  | debug name style =>
    simp only [plan, bind_eq_ok] at h
    obtain ⟨g, -, h⟩ := h
    split at h <;> cases h
    exact .tell _ _
  | showPointer name style =>
    simp only [plan, bind_eq_ok] at h
    obtain ⟨g, -, _, -, h⟩ := h
    split at h <;> cases h
    exact .tell _ _
  | project name target f => exact effect_project h
  | projectClone name target f =>
    simp only [plan, bind_eq_ok, vacant_eq_ok, handle_eq_ok] at h
    obtain ⟨_, hv, g, hg, h⟩ := h
    split at h
    · cases h
    · next f' ty hf =>
      cases h
      obtain ⟨rfl, hty⟩ := target_eq_some hf
      exact effect_projectClone hg hv hty
  | link name child =>
    simp only [plan, bind_eq_ok, handle_eq_ok] at h
    obtain ⟨g, hg, g', hg', node, hnode, h⟩ := h
    cases h
    rw [vacate, Slots.get?_erase] at hg'
    split at hg'
    · cases hg'
    · next hne => exact .link hne hg' hg hnode
  | unlink name target index =>
    simp only [plan, bind_eq_ok, vacant_eq_ok, handle_eq_ok] at h
    obtain ⟨_, hv, g, hg, node, hnode, h⟩ := h
    split at h
    · cases h
    · next g' hlink =>
      cases h
      obtain ⟨x, hx, hindex⟩ := Option.bind_eq_some_iff.1 hlink
      exact .unlink hg hv hnode hx hindex
  | churn name threads rounds =>
    simp only [plan, bind_eq_ok, handle_eq_ok] at h
    obtain ⟨g, hg, h⟩ := h
    cases h
    exact .churn threads rounds hg _
  | raceDrop names =>
    simp only [plan] at h
    split at h
    · next htake =>
      cases h
      exact .raceDrop htake _ (.inl rfl) _
    · next htake =>
      cases h
      exact .raceDrop htake _ (.inr rfl) _
  | raceLock name observer => exact effect_raceLock h
  | leak block side n | unleak block side n => exact effect_setBlock rfl h
  | slots =>
    cases h
    exact .tell _ _

/-- Whatever a command is, it comes down to one of the effects. -/
theorem effect_begin (s : State) (c : Command) : c.Effect s (s.begin c) := by
  cases hplan : s.plan c with
  | error reason =>
    rw [begin, hplan]
    exact .tell c _
  | ok next =>
    cases hfails : c.failsToAllocate with
    | true =>
      obtain ⟨a, onFailure, puts, hfails⟩ := exists_fails hfails hplan
      rw [hfails.begin_eq]
      exact .fail hfails
    | false =>
      rw [begin_of_plan hplan]
      exact effect_plan hfails hplan

/-! ### What drops leave alone -/

theorem giveBackWeak_leaves (s : State) (l : Nat) :
    (s.giveBackWeak l).slots = s.slots ∧
      (s.giveBackWeak l).heap.resources = s.heap.resources := by
  rw [giveBackWeak]
  split
  · exact ⟨rfl, rfl⟩
  · split <;> exact ⟨rfl, rfl⟩

/-- When a unit is given back, slots and resources stay, and what remains to be done works on no
handles. -/
theorem giveBack_leaves (s : State) (h : Handle) :
    (s.giveBack h).1.slots = s.slots ∧ (s.giveBack h).1.heap.resources = s.heap.resources ∧
      (s.giveBack h).2.flatMap Task.handles = [] := by
  rw [giveBack]
  split
  · exact ⟨rfl, rfl, rfl⟩
  · next l _ =>
    split
    · rw [giveBackStrong]
      split
      · exact ⟨rfl, rfl, rfl⟩
      · split
        · split
          · exact ⟨rfl, rfl, rfl⟩
          · simp only [slots_start, heap_start]
            exact ⟨rfl, rfl, by simp [start, Task.handles]⟩
        · exact ⟨rfl, rfl, rfl⟩
    · exact ⟨(giveBackWeak_leaves s l).1, (giveBackWeak_leaves s l).2, rfl⟩

/-- When a resource is dropped, the slots and the other resources stay. -/
theorem destroy_leaves (s : State) (r : Nat) :
    (s.destroy r).1.slots = s.slots ∧ (s.destroy r).1.heap.blocks = s.heap.blocks ∧
      ∀ r', r' ≠ r → (s.destroy r).1.heap.resources.get? r' = s.heap.resources.get? r' := by
  rw [destroy]
  split
  · exact ⟨rfl, rfl, fun _ _ => rfl⟩
  · refine ⟨?_, ?_, fun r' hne => ?_⟩
    · split <;> rfl
    · split <;> rfl
    · split <;> exact (Table.get?_erase ..).trans (if_neg hne.symm)

end State

end SharedOwnership
