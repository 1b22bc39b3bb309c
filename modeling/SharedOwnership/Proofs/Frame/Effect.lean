import SharedOwnership.Proofs.Provenance

/-!
# What a command leaves alone

A command changes the slots that it names, the blocks of the handles in them, and the resource of a
node that it links handles to or takes them from. All others are as they were, whatever the command
comes down to.

## Main definitions

* `Command.Reaches` — whether a command may change a block.
* `Command.Relinks`, `Command.Unlinks` — whether a command changes what a node holds, and whether it
  takes a handle out.

## Main results

* `Command.Effect.slots`, `Command.Effect.blocks`, `Command.Effect.resources` — what a command
  leaves alone.
-/

namespace SharedOwnership

/-! ### What a command works on -/

namespace Command

/-- A command names the slot of a handle. -/
def WorksOn (c : Command) (s : State) (h : Handle) : Prop :=
  ∃ name ∈ c.names, s.slots.get? name = some h

/-- A command works on a handle of the block labelled `l`, or asks for the block by its label. -/
def Reaches (c : Command) (s : State) (l : Nat) : Prop :=
  (∃ h, c.WorksOn s h ∧ h.block = some l) ∨ c.label? = some l

/-- A command takes the handle `g` from the node that has the resource labelled `r`. -/
def Unlinks (c : Command) (s : State) (r : Nat) (g : Handle) : Prop :=
  ∃ name target index h x, c = .unlink name target index ∧ s.slots.get? name = some h ∧
    State.nodeOf h = .ok r ∧ s.heap.resources.get? r = some x ∧ x.links[index]? = some g

/-- A command links a handle to the node that has the resource labelled `r`, or takes one from
it. -/
def Relinks (c : Command) (s : State) (r : Nat) : Prop :=
  (∃ name child h, c = .link name child ∧ s.slots.get? name = some h ∧ State.nodeOf h = .ok r) ∨
    ∃ g, c.Unlinks s r g

end Command

/-- Who asks for a further unit names the slot of the handle that it is asked for. -/
theorem Task.Asks.worksOn {s : State} {c : Command} {k : Kind} {h : Handle}
    (hasks : (Task.perform c).Asks s k h) : c.WorksOn s h := by
  cases hasks with
  | @clone name _ _ hg | @downgrade name _ _ hg | @projectClone name _ _ _ _ hg
  | @lock name _ _ hg => exact ⟨name, by simp [Command.names], hg⟩
  | @assign name source _ _ hpair =>
    exact ⟨source, by simp [Command.names], (State.pair_eq_ok hpair).2.2⟩

/-! ### Other blocks -/

namespace Heap

variable {heap : Heap} {h : Handle} {l : Nat} {b : Block}

theorem get?_modifyBlock_of_block {l' : Nat} (hl' : h.block = some l') (hl : h.block ≠ some l)
    (heap : Heap) (f : Block → Block) :
    (heap.modifyBlock l' f).blocks.get? l = heap.blocks.get? l := by
  have hne : l' ≠ l := fun heq => hl (heq ▸ hl')
  exact (Table.get?_modify ..).trans (if_neg hne)

/-- A further handle brings a unit of its own block only. -/
theorem get?_share (hl : h.block ≠ some l) (k : Kind) :
    (heap.share h k).1.blocks.get? l = heap.blocks.get? l := by
  rw [share]
  split
  · rfl
  · next l' hl' =>
    simp only [addUnit]
    split
    · exact get?_modifyBlock_of_block hl' hl heap _
    · rfl

theorem get?_lock (hl : h.block ≠ some l) :
    (heap.lock h).1.blocks.get? l = heap.blocks.get? l := by
  simp only [lock]
  split
  · rfl
  · next l' hl' =>
    split
    · rfl
    · split
      · rfl
      · exact get?_modifyBlock_of_block hl' hl heap _
      · rfl

theorem get?_forget (hl : h.block ≠ some l) :
    (heap.forget h).blocks.get? l = heap.blocks.get? l := by
  rw [forget]
  split
  · next l' hl' => exact get?_modifyBlock_of_block hl' hl heap _
  · rfl

theorem get?_churnOwner (hl : h.block ≠ some l) :
    (heap.churnOwner h).1.blocks.get? l = heap.blocks.get? l := by
  have hclone : (heap.clone h).1.blocks.get? l = heap.blocks.get? l := get?_share hl h.kind
  rw [churnOwner]
  rcases hmade : heap.clone h with ⟨heap₁, e | copy⟩ <;> rw [hmade] at hclone
  · exact hclone
  · obtain rfl := clone_eq_ok hmade
    have hdown : (heap₁.downgrade copy).1.blocks.get? l = heap₁.blocks.get? l :=
      get?_share hl .weak
    simp only
    rcases hmade' : heap₁.downgrade copy with ⟨heap₂, e | observer⟩ <;> rw [hmade'] at hdown
    · exact (get?_forget hl).trans (hdown.trans hclone)
    · obtain rfl := downgrade_eq_ok hmade'
      have hobserver : ({ copy with kind := .weak } : Handle).block ≠ some l := hl
      exact (get?_forget hobserver).trans ((get?_forget hl).trans (hdown.trans hclone))

theorem get?_churnObserver (hl : h.block ≠ some l) :
    (heap.churnObserver h).1.blocks.get? l = heap.blocks.get? l := by
  have hclone : (heap.clone h).1.blocks.get? l = heap.blocks.get? l := get?_share hl h.kind
  rw [churnObserver]
  rcases hmade : heap.clone h with ⟨heap₁, e | copy⟩ <;> rw [hmade] at hclone
  · exact hclone
  · obtain rfl := clone_eq_ok hmade
    have hlock : (heap₁.lock copy).1.blocks.get? l = heap₁.blocks.get? l := get?_lock hl
    simp only
    rcases hmade' : heap₁.lock copy with ⟨heap₂, e | owner⟩ <;> rw [hmade'] at hlock
    · exact (get?_forget hl).trans (hlock.trans hclone)
    · have howner : owner.block ≠ some l := block_lock (congrArg Prod.snd hmade') hl
      exact (get?_forget howner).trans ((get?_forget hl).trans (hlock.trans hclone))

theorem get?_churnRound (hl : h.block ≠ some l) :
    (heap.churnRound h).1.blocks.get? l = heap.blocks.get? l := by
  rw [churnRound]
  split
  · exact get?_churnOwner hl
  · exact get?_churnObserver hl

/-- However many handles of other blocks come and go, a block stays as it is. -/
theorem get?_churn (hl : h.block ≠ some l) (rounds threads : Nat) :
    (heap.churn h rounds threads).1.blocks.get? l = heap.blocks.get? l :=
  churn_of_churnRound (P := fun heap' => heap'.blocks.get? l = heap.blocks.get? l)
    (fun _ hP => (get?_churnRound hl).trans hP) rounds threads rfl

end Heap

/-- Who makes a further handle changes no block but that of the handle it is made of. -/
theorem Task.get?_make {t : Task} {h : Handle} {l : Nat} (hl : h.block ≠ some l) (heap : Heap)
    (k : Kind) : (t.make heap h k).1.blocks.get? l = heap.blocks.get? l := by
  rw [make]
  split
  · exact Heap.get?_lock hl
  · exact Heap.get?_share hl k

/-- A new block leaves the others as they are. -/
theorem Supply.get?_blocks_adopt_of_ne (a : Supply) {heap : Heap} {l : Nat}
    (hl : l ≠ heap.blocks.next) : (a.adopt heap).blocks.get? l = heap.blocks.get? l := by
  rw [adopt, Heap.get?_allocate, Heap.blocks_keep, if_neg hl]

/-- Resources that are there stay when others come. -/
theorem Heap.get?_keep_of_get? {heap : Heap} {r : Nat} {x : Resource}
    (hx : heap.resources.get? r = some x) (c : Option Content) :
    (heap.keep c).1.resources.get? r = some x :=
  (get?_resources_keep heap c (Table.lt_next_of_get? hx)).trans hx

theorem ReleaseAction.puts_of_mem_tasks {action : ReleaseAction} {resource : Option Nat} {t : Task}
    (ht : t ∈ action.tasks resource) : t.puts = [] := by
  rcases mem_tasks ht with ⟨c, -, rfl⟩ | rfl | ⟨r, rfl⟩ | ⟨p, rfl⟩ <;> rfl

theorem ReleaseAction.finish_notMem_tasks (action : ReleaseAction) (resource : Option Nat)
    (l : Nat) : .finish l ∉ action.tasks resource := by
  intro ht
  rcases mem_tasks ht with ⟨c, -, h⟩ | h | ⟨r, h⟩ | ⟨p, h⟩ <;> cases h

theorem State.get?_takeAll {s s' : State} {names : List String} {hs : List Handle}
    {reason : Option Refusal} {x : String} (h : s.takeAll names = (s', hs, reason))
    (hx : x ∉ names) : s'.slots.get? x = s.slots.get? x := by
  induction names generalizing s hs reason with
  | nil =>
    cases h
    rfl
  | cons name names ih =>
    simp only [List.mem_cons, not_or] at hx
    rw [takeAll] at h
    split at h
    · cases h
      rfl
    · next g hg =>
      rcases htake : (s.vacate name).takeAll names with ⟨s₁, hs₁, reason₁⟩
      rw [htake] at h
      cases h
      exact (ih htake hx.2).trans (Slots.get?_erase_of_ne _ hx.1)

/-! ### What a command leaves alone -/

namespace Command.Effect

variable {s : State} {c : Command} {next : State × List Task} {x : String} {l r : Nat}
  {y : Resource}

theorem slots_fail {a : Supply} {onFailure : OnFailure} {puts : List (String × Handle)}
    (hfails : c.Fails s a onFailure puts) (hx : x ∉ c.names) :
    (s.failedNext a onFailure puts).1.slots.get? x = s.slots.get? x ∧
      ∀ t ∈ (s.failedNext a onFailure puts).2, x ∉ t.puts.map Prod.fst := by
  have htasks : x ∉ puts.map Prod.fst → ∀ t ∈ (s.failedNext a onFailure puts).2,
      x ∉ t.puts.map Prod.fst := by
    intro hputs t ht
    rcases List.mem_append.1 ht with ht | ht
    · rw [ReleaseAction.puts_of_mem_tasks ht]
      exact List.not_mem_nil
    · rw [List.mem_singleton.1 ht]
      exact hputs
  cases hfails with
  | create | adopt => exact ⟨by rw [State.failedNext, State.slots_start]; rfl, htasks (by simp)⟩
  | replaceNull name | replace name =>
    have hname : x ≠ name := by simpa [names] using hx
    refine ⟨?_, htasks (by simpa using hname)⟩
    rw [State.failedNext, State.slots_start]
    exact Slots.get?_erase_of_ne _ hname

/-- A slot that a command does not name is left alone by it, and by the tasks that remain. -/
theorem slots (heffect : c.Effect s next) (hx : x ∉ c.names) :
    next.1.slots.get? x = s.slots.get? x ∧ ∀ t ∈ next.2, x ∉ t.puts.map Prod.fst := by
  have hreply : ∀ (s : State) (a : Answer), ∀ t ∈ (s.reply a).2, x ∉ t.puts.map Prod.fst := by
    simp [State.reply, Task.puts]
  have hput : ∀ {target h} (slots : Slots), target ∈ c.names →
      (slots.put target h).get? x = slots.get? x := by
    intro target h slots hname
    exact Slots.get?_put_of_ne _ _ fun heq => hx (heq ▸ hname)
  have herase : ∀ {target} (slots : Slots), target ∈ c.names →
      (slots.erase target).get? x = slots.get? x := by
    intro target slots hname
    exact Slots.get?_erase_of_ne _ fun heq => hx (heq ▸ hname)
  cases heffect with
  | tell a => exact ⟨rfl, hreply _ _⟩
  | fail hfails => exact slots_fail hfails hx
  | adopt hsupplies hadopts hslots hv hname =>
    exact ⟨(hput _ hname).trans (congrArg (·.get? x) hslots), hreply _ _⟩
  | replace hsupplies hadopts hslots hg =>
    refine ⟨(herase _ (by simp [names])).trans (congrArg (·.get? x) hslots), ?_⟩
    simpa [Task.puts, names] using hx
  | empty target kind ty hv => exact ⟨hput _ (by simp [names]), hreply _ _⟩
  | overflow => exact ⟨rfl, hreply _ _⟩
  | obtain hasks hmade hv hname a => exact ⟨hput _ hname, hreply _ _⟩
  | assign hpair hmade =>
    refine ⟨(herase _ (by simp [names])).trans (herase _ (by simp [names])), ?_⟩
    simp only [names, List.mem_cons, List.not_mem_nil, or_false, not_or] at hx
    simp [Task.puts, hx.1, hx.2]
  | projectClone => exact ⟨hput _ (by simp [names]), hreply _ _⟩
  | unclone => exact ⟨rfl, by simp [Task.puts]⟩
  | project => exact ⟨(hput _ (by simp [names])).trans (herase _ (by simp [names])), hreply _ _⟩
  | unproject => exact ⟨herase _ (by simp [names]), by simp [Task.puts]⟩
  | take => exact ⟨(hput _ (by simp [names])).trans (hput _ (by simp [names])), hreply _ _⟩
  | drop | dropOnThread => exact ⟨herase _ (by simp [names]), by simp [Task.puts]⟩
  | reset => exact ⟨herase _ (by simp [names]), by simpa [Task.puts, names] using hx⟩
  | swap => exact ⟨(hput _ (by simp [names])).trans (hput _ (by simp [names])), hreply _ _⟩
  | link => exact ⟨herase _ (by simp [names]), hreply _ _⟩
  | unlink => exact ⟨hput _ (by simp [names]), hreply _ _⟩
  | lend => exact ⟨rfl, hreply _ _⟩
  | churn => exact ⟨rfl, hreply _ _⟩
  | raceDrop htake ts hts a =>
    refine ⟨State.get?_takeAll htake hx, fun t ht => ?_⟩
    have hputs : t.puts = [] := by
      rcases List.mem_append.1 ht with ht | ht
      · rcases hts with rfl | rfl
        · rw [List.mem_singleton.1 ht]
          rfl
        · obtain ⟨h, -, rfl⟩ := List.mem_map.1 ht
          rfl
      · rw [List.mem_singleton.1 ht]
        rfl
    simp [hputs]
  | raceAlone => exact ⟨herase _ (by simp [names]), by simp [Task.puts]⟩
  | raceLock hne hg hw t ht pending =>
    refine ⟨(herase _ (by simp [names])).trans (herase _ (by simp [names])), ?_⟩
    simp only [names, List.mem_cons, List.not_mem_nil, or_false, not_or] at hx
    rcases ht with rfl | rfl <;> simp [Task.puts, hx.2]

/-- A block that a command neither reaches nor makes is left alone by it, and the end of its release
action is not among the tasks that remain. -/
theorem blocks (heffect : c.Effect s next) (hl : ¬ c.Reaches s l)
    (hnext : l ≠ s.heap.blocks.next) :
    next.1.heap.blocks.get? l = s.heap.blocks.get? l ∧ .finish l ∉ next.2 := by
  have hblock : ∀ {h}, c.WorksOn s h → h.block ≠ some l := fun hworks heq =>
    hl (.inl ⟨_, hworks, heq⟩)
  have hmake : ∀ {k h heap made}, (Task.perform c).Asks s k h →
      (Task.perform c).make s.heap h k = (heap, made) →
      heap.blocks.get? l = s.heap.blocks.get? l := by
    intro k h heap made hasks hmade
    have hget := Task.get?_make (t := .perform c) (hblock hasks.worksOn) s.heap k
    rwa [hmade] at hget
  have hadopted : ∀ {a : Supply} {s' : State}, s.Adopts a s' →
      s'.heap.blocks.get? l = s.heap.blocks.get? l := by
    intro a s' hadopts
    rw [hadopts.heap, a.get?_blocks_adopt_of_ne hnext]
  cases heffect with
  | tell a => exact ⟨rfl, by simp [State.reply]⟩
  | @fail _ a onFailure puts hfails =>
    constructor
    · rw [State.failedNext, State.heap_start]
      exact congrArg (·.get? l) (Heap.blocks_keep ..)
    · simpa [State.failedNext] using a.action.finish_notMem_tasks (a.resource s.heap) l
  | @adopt _ a s' target hsupplies hadopts =>
    have hget : s'.heap.blocks.get? l = s.heap.blocks.get? l := hadopted hadopts
    exact ⟨hget, by simp [State.reply]⟩
  | @replace name h value terms script a s' hsupplies hadopts =>
    have hget : s'.heap.blocks.get? l = s.heap.blocks.get? l := hadopted hadopts
    exact ⟨hget, by simp⟩
  | overflow hasks hmade => exact ⟨hmake hasks hmade, by simp [State.reply]⟩
  | obtain hasks hmade => exact ⟨hmake hasks hmade, by simp [State.reply]⟩
  | assign hpair hmade => exact ⟨hmake (.assign hpair) hmade, by simp⟩
  | projectClone hg hv hty hmade =>
    exact ⟨hmake (.projectClone hg hv hty) hmade, by simp [State.reply]⟩
  | unclone hg hv hty hmade => exact ⟨hmake (.projectClone hg hv hty) hmade, by simp⟩
  | lend hc hb a =>
    refine ⟨(Heap.get?_setBlock hb _ l).trans (if_neg fun heq => hl (.inr ?_)), ?_⟩
    · rw [hc, heq]
    · simp [State.reply]
  | @churn name h threads rounds hg a =>
    exact ⟨Heap.get?_churn (hblock ⟨name, by simp [names], hg⟩) rounds threads,
      by simp [State.reply]⟩
  | raceDrop htake ts hts a =>
    refine ⟨by rw [(State.takeAll_spec _ htake).1], ?_⟩
    rcases hts with rfl | rfl <;> simp
  | raceLock hne hg hw t ht pending =>
    refine ⟨rfl, ?_⟩
    rcases ht with rfl | rfl <;> simp
  | empty | project | take | swap | link | unlink => exact ⟨rfl, by simp [State.reply]⟩
  | unproject | drop | dropOnThread | reset | raceAlone => exact ⟨rfl, by simp⟩

/-- A command may change what a node holds, and it takes one handle out at most. -/
theorem resources (heffect : c.Effect s next) (hy : s.heap.resources.get? r = some y) :
    ∃ z, next.1.heap.resources.get? r = some z ∧ (z = y ∨ c.Relinks s r) ∧
      ∀ h, y.links.count h ≤ z.links.count h ∨ c.Unlinks s r h := by
  have hsame : next.1.heap.resources.get? r = some y →
      ∃ z, next.1.heap.resources.get? r = some z ∧ (z = y ∨ c.Relinks s r) ∧
        ∀ h, y.links.count h ≤ z.links.count h ∨ c.Unlinks s r h := by
    intro hget
    exact ⟨y, hget, .inl rfl, fun h => .inl le_rfl⟩
  have hadopted : ∀ {a : Supply} {s' : State}, s.Adopts a s' →
      s'.heap.resources.get? r = some y := by
    intro a s' hadopts
    have hkeep := Heap.get?_keep_of_get? hy (a.content.map Subtype.val)
    rw [hadopts.heap]
    exact hkeep
  have hclone : ∀ {h heap made}, s.heap.clone h = (heap, made) →
      heap.resources.get? r = some y := by
    intro h heap made hmade
    rw [Heap.resources_of_clone hmade, hy]
  cases heffect with
  | fail hfails =>
    apply hsame
    rw [State.failedNext, State.heap_start]
    exact Heap.get?_keep_of_get? hy _
  | @adopt _ a s' target hsupplies hadopts =>
    have hget : s'.heap.resources.get? r = some y := hadopted hadopts
    exact hsame hget
  | @replace name h value terms script a s' hsupplies hadopts =>
    have hget : s'.heap.resources.get? r = some y := hadopted hadopts
    exact hsame hget
  | overflow hasks hmade =>
    exact hsame ((congrArg (fun t : Table Resource => t.get? r)
      (Task.resources_of_make hmade)).trans hy)
  | obtain hasks hmade =>
    exact hsame ((congrArg (fun t : Table Resource => t.get? r)
      (Task.resources_of_make hmade)).trans hy)
  | assign hpair hmade => exact hsame (hclone hmade)
  | projectClone hg hv hty hmade | unclone hg hv hty hmade => exact hsame (hclone hmade)
  | @link name child h g node hne hg hg' hnode =>
    by_cases hr : node = r
    · subst hr
      refine ⟨{ y with links := y.links ++ [g] }, ?_, .inr (.inl ⟨_, _, _, rfl, hg, hnode⟩), ?_⟩
      · refine (Table.get?_modify ..).trans ((if_pos rfl).trans ?_)
        rw [hy, Option.map_some]
      · intro h'
        left
        rw [List.count_append]
        exact Nat.le_add_right ..
    · exact hsame ((Table.get?_modify ..).trans ((if_neg hr).trans hy))
  | @unlink name target index h g node x hg hv hnode hx hindex =>
    by_cases hr : node = r
    · subst hr
      obtain rfl : x = y := Option.some.inj (hx.symm.trans hy)
      have hunlinks : (Command.unlink name target index).Unlinks s node g :=
        ⟨_, _, _, _, _, rfl, hg, hnode, hx, hindex⟩
      refine ⟨{ x with links := x.links.eraseIdx index }, ?_, .inr (.inr ⟨g, hunlinks⟩), ?_⟩
      · refine (Table.get?_modify ..).trans ((if_pos rfl).trans ?_)
        rw [hx, Option.map_some]
      · intro h'
        by_cases hh : h' = g
        · exact .inr (hh ▸ hunlinks)
        · left
          have hperm : x.links.Perm (g :: x.links.eraseIdx index) := by
            obtain ⟨hlt, rfl⟩ := List.getElem?_eq_some_iff.1 hindex
            exact (List.getElem_cons_eraseIdx_perm hlt).symm
          rw [hperm.count_eq, List.count_cons_of_ne (Ne.symm hh)]
    · exact hsame ((Table.get?_modify ..).trans ((if_neg hr).trans hy))
  | churn threads rounds =>
    exact hsame ((congrArg (·.get? r) (Heap.resources_churn ..)).trans hy)
  | raceDrop htake => exact hsame (by rw [(State.takeAll_spec _ htake).1, hy])
  | _ => exact hsame hy

end Command.Effect

end SharedOwnership
