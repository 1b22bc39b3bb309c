import SharedOwnership.Proofs.Ledger.Perform
import SharedOwnership.Proofs.Weight

/-!
# Every step makes a machine lighter

Neither the number of blocks nor that of handles falls along a run, since a release action may make
both. What falls is the weight: a command pays for the handles that it makes and for the script that
it hands to a block, the block pays for the script when it is started, and a handle pays for its own
drop.

## Main results

* `State.weight_begin_lt` — what a command makes and leaves to be done is lighter than the command.
* `Machine.weight_step_lt` — every step makes a machine lighter.
-/

namespace SharedOwnership

/-! ### Tables and slots -/

namespace Table

variable {α : Type} {t : Table α} {l : Nat}

theorem weight_insert (w : α → Nat) (t : Table α) (a : α) :
    (t.insert a).weight w = t.weight w + w a := by
  simp [weight_eq_sum]

/-- A change of an entry that adds no more than `n` to its weight. -/
theorem weight_modify_le (w : α → Nat) {f : α → α} {n : Nat} (hf : ∀ a, w (f a) ≤ w a + n) :
    (t.modify l f).weight w ≤ t.weight w + n := by
  cases ha : t.get? l with
  | some a =>
    have hle := hf a
    rw [weight_modify w ha, weight_of_get? w ha]
    omega
  | none =>
    have hmodify : t.modify l f = t := by
      rcases l with _ | i
      · rfl
      · rw [get?_succ] at ha
        obtain ⟨entries⟩ := t
        simp only [modify, mk.injEq]
        apply List.ext_getElem?
        intro j
        rw [List.getElem?_modify]
        split
        · next hij =>
          subst hij
          rcases h : entries[i]? with _ | _ | a <;> simp_all
        · exact id_map _
    rw [hmodify]
    omega

end Table

namespace Slots

variable {slots : Slots} {name : String} {h : Handle}

/-- A handle that takes a slot displaces the one that was there. -/
theorem length_put (slots : Slots) (name : String) (h : Handle) :
    (slots.put name h).entries.length + (slots.get? name).toList.length =
      slots.entries.length + 1 := by
  have hput := (perm_put slots name h).length_eq
  cases hg : slots.get? name with
  | none => simpa [entries_erase_of_vacant hg] using hput
  | some g =>
    have herase := (perm_erase hg).length_eq
    simp only [List.length_cons, Option.toList_some, List.length_nil] at hput herase ⊢
    omega

theorem length_erase (hg : slots.get? name = some h) :
    (slots.erase name).entries.length + 1 = slots.entries.length := by
  simpa using (perm_erase hg).length_eq.symm

theorem length_erase_le (slots : Slots) (name : String) :
    (slots.erase name).entries.length ≤ slots.entries.length := List.length_filter_le ..

end Slots

/-! ### Heaps -/

namespace Heap

/-- The weight of a heap: that of the release actions and of the handles in it. -/
def weight (heap : Heap) : Nat :=
  heap.blocks.weight Block.weight + heap.resources.weight Resource.weight

variable {heap : Heap} {h : Handle} {k : Kind} {l : Nat}

theorem weight_modifyBlock_le {f : Block → Block} (hf : ∀ b, (f b).action = b.action) :
    (heap.modifyBlock l f).weight ≤ heap.weight := by
  have hle : (heap.blocks.modify l f).weight Block.weight ≤ heap.blocks.weight Block.weight + 0 :=
    Table.weight_modify_le _ fun b => by rw [Block.weight, Block.weight, hf, Nat.add_zero]
  exact Nat.add_le_add_right hle _

theorem weight_modifyResource_le {f : Resource → Resource} {n : Nat}
    (hf : ∀ r, (f r).weight ≤ r.weight + n) :
    (heap.modifyResource l f).weight ≤ heap.weight + n := by
  have hle : (heap.resources.modify l f).weight Resource.weight ≤
      heap.resources.weight Resource.weight + n := Table.weight_modify_le _ hf
  exact (Nat.add_le_add_left hle _).trans_eq (Nat.add_assoc ..).symm

theorem weight_setBlock_le {b b' : Block} (hb : heap.blocks.get? l = some b)
    (haction : b'.action = b.action) : (heap.setBlock l b').weight ≤ heap.weight := by
  have hset := modifyBlock_eq_setBlock (fun b => { b' with action := b.action }) hb
  simp only [← haction] at hset
  exact hset ▸ weight_modifyBlock_le fun _ => rfl

theorem weight_removeUnit_le : (heap.removeUnit k l).weight ≤ heap.weight :=
  weight_modifyBlock_le fun _ => rfl

theorem weight_share_le : (heap.share h k).1.weight ≤ heap.weight := by
  rw [share]
  split
  · exact Nat.le_refl _
  · next l _ =>
    simp only [addUnit]
    split
    · exact weight_modifyBlock_le fun b => Block.action_addUnit b k
    · exact Nat.le_refl _

theorem weight_lock_le : (heap.lock h).1.weight ≤ heap.weight := by
  rw [lock]
  split
  · exact Nat.le_refl _
  · split
    · exact Nat.le_refl _
    · next b hb =>
      split
      · exact Nat.le_refl _
      · next b' hp =>
        obtain ⟨-, -, rfl⟩ := Block.promote_eq_some.1 hp
        exact weight_setBlock_le hb rfl
      · exact Nat.le_refl _

theorem weight_forget_le : (heap.forget h).weight ≤ heap.weight := by
  rw [forget]
  split
  · exact weight_removeUnit_le
  · exact Nat.le_refl _

/-- What each further handle keeps, and each handle that is let go, is kept by one round. -/
theorem churnRound_induction {P : Heap → Prop}
    (hshare : ∀ heap h k, P heap → P (share heap h k).1)
    (hlock : ∀ heap h, P heap → P (lock heap h).1)
    (hforget : ∀ heap h, P heap → P (forget heap h)) (h : Handle) (hP : P heap) :
    P (heap.churnRound h).1 := by
  have hclone : P (heap.clone h).1 := hshare heap h h.kind hP
  rw [churnRound]
  split
  · rw [churnOwner]
    rcases hmade : heap.clone h with ⟨heap₁, e | copy⟩ <;> rw [hmade] at hclone
    · exact hclone
    · have hdown : P (heap₁.downgrade copy).1 := hshare heap₁ copy .weak hclone
      simp only
      rcases hmade' : heap₁.downgrade copy with ⟨heap₂, e | observer⟩ <;> rw [hmade'] at hdown
      · exact hforget _ _ hdown
      · exact hforget _ _ (hforget _ _ hdown)
  · rw [churnObserver]
    rcases hmade : heap.clone h with ⟨heap₁, e | copy⟩ <;> rw [hmade] at hclone
    · exact hclone
    · have hlocked := hlock heap₁ copy hclone
      simp only
      rcases hmade' : heap₁.lock copy with ⟨heap₂, e | owner⟩ <;> rw [hmade'] at hlocked
      · exact hforget _ _ hlocked
      · exact hforget _ _ (hforget _ _ hlocked)

/-- What a round keeps is kept by many rounds on many threads. -/
theorem churn_of_churnRound {P : Heap → Prop} {h : Handle}
    (hround : ∀ heap, P heap → P (churnRound heap h).1) (rounds threads : Nat) (hP : P heap) :
    P (heap.churn h rounds threads).1 := by
  have hthread : ∀ heap : Heap, P heap → ∀ rounds total,
      P (heap.churnThread h rounds total).1 := by
    intro heap hP rounds
    induction rounds generalizing heap with
    | zero => exact fun _ => hP
    | succ rounds ih =>
      intro total
      have hround := hround heap hP
      rw [churnThread]
      rcases hmade : heap.churnRound h with ⟨heap₁, e | n⟩ <;> rw [hmade] at hround
      · exact hround
      · exact ih heap₁ hround (total + n)
  induction threads generalizing heap with
  | zero => exact hP
  | succ threads ih =>
    have hfirst := hthread heap hP rounds 0
    rw [churn]
    rcases hmade : heap.churnThread h rounds 0 with ⟨heap₁, e | n⟩ <;> rw [hmade] at hfirst <;>
      exact ih hfirst

/-- What each further handle keeps, and each handle that is let go, is kept by all rounds. -/
theorem churn_induction {P : Heap → Prop}
    (hshare : ∀ heap h k, P heap → P (share heap h k).1)
    (hlock : ∀ heap h, P heap → P (lock heap h).1)
    (hforget : ∀ heap h, P heap → P (forget heap h)) (h : Handle) (rounds threads : Nat)
    (hP : P heap) : P (heap.churn h rounds threads).1 :=
  churn_of_churnRound (fun _ => churnRound_induction hshare hlock hforget h) rounds threads hP

theorem weight_churn_le (h : Handle) (rounds threads : Nat) :
    (heap.churn h rounds threads).1.weight ≤ heap.weight :=
  churn_induction (P := fun heap' => heap'.weight ≤ heap.weight)
    (fun _ _ _ hP => weight_share_le.trans hP) (fun _ _ hP => weight_lock_le.trans hP)
    (fun _ _ hP => weight_forget_le.trans hP) h rounds threads (Nat.le_refl _)

end Heap

/-! ### Commands -/

theorem commandWeight_le (c : Command) : commandWeight ≤ c.weight := by
  cases c <;> simp [Command.weight]

namespace State

variable {s s' : State} {slot target : String} {h : Handle} {ty : Ty}
  {content : Option (Content.Of ty)}
  {carried layout : Layout} {action : ReleaseAction} {fails : Bool} {tasks : List Task} {n : Nat}
  {next : State × List Task}

theorem weight_eq (s : State) : s.weight = handleWeight * s.slots.entries.length + s.heap.weight :=
  Nat.add_assoc ..

/-- A state in which a heap takes the place of another one. -/
theorem weight_withHeap_le {heap : Heap} (hheap : heap.weight ≤ s.heap.weight + n) :
    ({ s with heap } : State).weight ≤ s.weight + n := by
  rw [weight_eq, weight_eq]
  simp only
  omega

/-- A handle that takes a slot displaces the one that was there. -/
theorem weight_put (s : State) (slot : String) (h : Handle) :
    (s.put slot h).weight + handleWeight * (s.slots.get? slot).toList.length =
      s.weight + handleWeight := by
  have hlength := Slots.length_put s.slots slot h
  simp only [weight_eq, put, handleWeight] at hlength ⊢
  omega

theorem weight_put_le (s : State) (slot : String) (h : Handle) :
    (s.put slot h).weight ≤ s.weight + handleWeight := by
  have hput := weight_put s slot h
  omega

theorem weight_vacate (hg : s.slots.get? slot = some h) :
    (s.vacate slot).weight + handleWeight = s.weight := by
  have hlength := Slots.length_erase hg
  simp only [weight_eq, vacate, handleWeight] at hlength ⊢
  omega

theorem weight_vacate_le (s : State) (slot : String) : (s.vacate slot).weight ≤ s.weight := by
  have hlength := Slots.length_erase_le s.slots slot
  simp only [weight_eq, vacate, handleWeight] at hlength ⊢
  omega

/-- What a state makes and leaves to be done weighs at most `n` more than the state that was. -/
def Within (s : State) (n : Nat) (next : State × List Task) : Prop :=
  next.1.weight + (next.2.map Task.weight).sum ≤ s.weight + n

theorem Within.reply (hs : s'.weight ≤ s.weight + n) (a : Answer) :
    Within s (n + 1) (s'.reply a) := by
  simp only [Within, State.reply, List.map_cons, List.map_nil, List.sum_cons, List.sum_nil,
    Task.weight, Pending.weight, List.length_nil]
  omega

theorem within_tasks (hs : s'.weight ≤ s.weight) (htasks : (tasks.map Task.weight).sum ≤ n) :
    Within s n (s', tasks) := Nat.add_le_add hs htasks

theorem within_deliver {made : Heap × Except Panic Handle} (answer : Handle → Answer)
    (hmade : made.1.weight ≤ s.heap.weight) :
    Within s (handleWeight + 1) (s.deliver slot made answer) := by
  have hs : ({ s with heap := made.1 } : State).weight ≤ s.weight :=
    weight_withHeap_le (n := 0) hmade
  rw [deliver]
  split
  · next h _ =>
    have hput := weight_put_le { s with heap := made.1 } slot h
    exact .reply (by omega) _
  · exact .reply (by omega) _

/-- A new block has the weight of its release action; if it cannot be allocated, what the release
action does is lighter. -/
theorem weight_adoption_le :
    (∀ new, s.adoption ty content carried action fails = (s', .ok new) →
      s'.weight ≤ s.weight + action.weight) ∧
    (∀ layout tasks, s.adoption ty content carried action fails = (s', .error (layout, tasks)) →
      s'.weight + (tasks.map Task.weight).sum < s.weight + action.weight) := by
  have hkeep : (s.heap.keep (content.map Subtype.val)).1.weight = s.heap.weight := by
    cases content with
    | none => rfl
    | some c => simp [Heap.keep, Heap.store, Heap.weight, Table.weight_insert, Resource.weight]
  cases fails with
  | false =>
    rw [adoption_false]
    constructor
    · rintro new ⟨⟩
      rw [weight_record]
      refine weight_withHeap_le ?_
      rw [← hkeep]
      simp only [Heap.allocate, Heap.weight, Table.weight_insert, Block.weight, Option.map_some,
        Option.getD_some]
      omega
    · rintro layout tasks ⟨⟩
  | true =>
    rw [adoption_true]
    constructor
    · rintro new ⟨⟩
    · rintro layout tasks ⟨⟩
      have htasks := action.sum_weight_tasks_lt (s.heap.keep (content.map Subtype.val)).2
      rw [weight_start, weight_record]
      have hs : ({ s with heap := (s.heap.keep (content.map Subtype.val)).1 } : State).weight ≤
          s.weight + 0 := weight_withHeap_le (Nat.le_of_eq hkeep)
      omega

theorem within_adoptInto (onFailure : OnFailure) : Within s (action.weight + handleWeight + 1)
    (s.adoptInto slot ty content carried action onFailure fails) := by
  rw [adoptInto]
  rcases hmade : s.adoption ty content carried action fails with ⟨s', ⟨layout, tasks⟩ | h⟩
  · have hlt := weight_adoption_le.2 layout tasks hmade
    simp only [Within, List.map_append, List.sum_append, List.map_cons, List.map_nil, List.sum_cons,
      List.sum_nil, Task.weight, Pending.weight, List.length_nil, handleWeight]
    omega
  · have hle := weight_adoption_le.1 h hmade
    have hput := weight_put_le s' slot h
    exact .reply (by omega) _

theorem within_replace {content : Option (Content.Of h.ty)} {terms : Terms}
    {script : List Command} :
    Within s (Command.scriptWeight script + 18) (s.replace slot h content terms script) := by
  have hnumber : s.number.1.weight = s.weight := rfl
  rw [replace]
  simp only [number] at hnumber ⊢
  split
  · next s' new hmade =>
    have hle := weight_adoption_le.1 new hmade
    have hvacate := weight_vacate_le s' slot
    simp only [Within, List.map_cons, List.map_nil, List.sum_cons, List.sum_nil, Task.weight,
      Pending.weight, List.length_cons, List.length_nil, ReleaseAction.weight, handleWeight] at hle ⊢
    omega
  · next s' layout tasks hmade =>
    have hlt := weight_adoption_le.2 layout tasks hmade
    have hvacate := weight_vacate_le s' slot
    simp only [Within, List.map_append, List.sum_append, List.map_cons, List.map_nil, List.sum_cons,
      List.sum_nil, Task.weight, Pending.weight, List.length_cons, List.length_nil,
      ReleaseAction.weight, handleWeight] at hlt ⊢
    omega

theorem within_project {f : Projection} : Within s 7 (s.project slot target h f ty) := by
  have hvacate := weight_vacate_le s slot
  unfold project
  split
  · next q _ =>
    have hput := weight_put_le (s.vacate slot) target { h with ty, pointer := q }
    rw [handleWeight] at hput
    exact .reply (by omega) _
  · exact within_tasks hvacate (Nat.le_refl _)

theorem within_projectClone {f : Projection} :
    Within s 7 (s.projectClone target h f ty) := by
  have hclone : (s.heap.clone h).1.weight ≤ s.heap.weight + 0 := Heap.weight_share_le
  rw [projectClone]
  rcases hmade : s.heap.clone h with ⟨heap, e | copy⟩ <;> rw [hmade] at hclone
  all_goals
    have hs : ({ s with heap } : State).weight ≤ s.weight + 0 := weight_withHeap_le hclone
    simp only
  · exact .reply (by omega) _
  · split
    · next q _ =>
      have hput := weight_put_le { s with heap } target { copy with ty, pointer := q }
      rw [handleWeight] at hput
      exact .reply (by omega) _
    · exact within_tasks hs (Nat.le_refl _)

/-- The handles that are taken out of their slots are at most as many as the names. -/
theorem takeAll_le (s : State) (names : List String) :
    (s.takeAll names).1.weight ≤ s.weight ∧ (s.takeAll names).2.1.length ≤ names.length := by
  induction names generalizing s with
  | nil => exact ⟨Nat.le_refl _, Nat.le_refl _⟩
  | cons name names ih =>
    rw [takeAll]
    split
    · exact ⟨Nat.le_refl _, Nat.zero_le _⟩
    · obtain ⟨hweight, hlength⟩ := ih (s.vacate name)
      exact ⟨hweight.trans (weight_vacate_le s name), Nat.succ_le_succ hlength⟩

/-- Units that no handle holds weigh nothing. -/
theorem within_setBlock {l : Nat} {side : Kind} {reason : Refusal} {f : Block → Option Block}
    (hf : ∀ b b', f b = some b' → b'.action = b.action)
    (h : s.setBlock l side reason f = .ok next) : Within s 1 next := by
  rw [setBlock] at h
  split at h
  · cases h
  · next b hb =>
    split at h
    · cases h
    · next b' hf' =>
      cases h
      have hle : ({ s with heap := s.heap.setBlock l b' } : State).weight ≤ s.weight + 0 :=
        weight_withHeap_le (Heap.weight_setBlock_le hb (hf b b' hf'))
      exact .reply hle _

theorem within_plan {c : Command} (hplan : s.plan c = .ok next) :
    ∃ n < c.weight, Within s n next := by
  have hsmall : ∀ {n}, Within s n next → n < commandWeight → ∃ n < c.weight, Within s n next :=
    fun hwithin hn => ⟨_, hn.trans_le (commandWeight_le c), hwithin⟩
  have hreply : ∀ a, Within s 1 (s.reply a) := fun a => .reply (Nat.le_refl _) a
  cases c with
  | malformed guards reason =>
    simp only [plan, bind_eq_ok] at hplan
    obtain ⟨_, -, h⟩ := hplan
    cases h
  | create target ty content onFailure fails =>
    simp only [plan, bind_eq_ok] at hplan
    obtain ⟨_, -, h⟩ := hplan
    cases h
    exact hsmall (within_adoptInto onFailure) (by decide)
  | adopt target ty content onFailure terms script =>
    simp only [plan, bind_eq_ok] at hplan
    obtain ⟨_, -, h⟩ := hplan
    cases h
    refine ⟨_, ?_, within_adoptInto (s := s.number.1) onFailure⟩
    simp only [Command.weight, commandWeight, ReleaseAction.weight, handleWeight]
    omega
  | empty target kind ty =>
    simp only [plan, bind_eq_ok] at hplan
    obtain ⟨_, -, h⟩ := hplan
    cases h
    exact hsmall (.reply (weight_put_le ..) _) (by decide)
  | clone name target =>
    simp only [plan, bind_eq_ok] at hplan
    obtain ⟨_, -, g, -, h⟩ := hplan
    cases h
    exact hsmall (within_deliver _ Heap.weight_share_le) (by decide)
  | take name target =>
    simp only [plan, bind_eq_ok] at hplan
    obtain ⟨_, -, g, -, h⟩ := hplan
    cases h
    have hput := weight_put_le s name g.emptied
    have hput' := weight_put_le (s.put name g.emptied) target g
    exact hsmall (.reply (n := 2 * handleWeight) (by omega) _) (by decide)
  | downgrade name target =>
    simp only [plan, bind_eq_ok] at hplan
    obtain ⟨_, -, g, -, _, -, h⟩ := hplan
    cases h
    exact hsmall (within_deliver _ Heap.weight_share_le) (by decide)
  | lock name target =>
    simp only [plan, bind_eq_ok] at hplan
    obtain ⟨_, -, g, -, _, -, h⟩ := hplan
    cases h
    exact hsmall (within_deliver _ Heap.weight_lock_le) (by decide)
  | drop name =>
    simp only [plan, bind_eq_ok] at hplan
    obtain ⟨g, -, h⟩ := hplan
    cases h
    exact hsmall (within_tasks (n := 5) (weight_vacate_le s name) (Nat.le_refl _)) (by decide)
  | dropOnThread name =>
    simp only [plan, bind_eq_ok] at hplan
    obtain ⟨g, -, h⟩ := hplan
    cases h
    exact hsmall (within_tasks (n := 10) (weight_vacate_le s name) (Nat.le_refl _)) (by decide)
  | reset name =>
    simp only [plan, bind_eq_ok] at hplan
    obtain ⟨g, -, h⟩ := hplan
    cases h
    exact hsmall (within_tasks (n := 10) (weight_vacate_le s name) (Nat.le_refl _)) (by decide)
  | replace name value terms script =>
    simp only [plan, bind_eq_ok] at hplan
    obtain ⟨g, -, _, -, h⟩ := hplan
    split at h
    all_goals
      obtain ⟨content, -, h⟩ := bind_eq_ok.1 h
      cases h
      refine ⟨_, ?_, within_replace⟩
      simp only [Command.weight, commandWeight]
      omega
  | swap name other =>
    simp only [plan, bind_eq_ok] at hplan
    obtain ⟨⟨g, g'⟩, -, h⟩ := hplan
    cases h
    have hput := weight_put_le s name g'
    have hput' := weight_put_le (s.put name g') other g
    exact hsmall (.reply (n := 2 * handleWeight) (by simp only; omega) _) (by decide)
  | assign name source =>
    simp only [plan, bind_eq_ok] at hplan
    obtain ⟨⟨g, g'⟩, -, h⟩ := hplan
    have hclone : (s.heap.clone g').1.weight ≤ s.heap.weight + 0 := Heap.weight_share_le
    split at h
    · next heap e hmade =>
      cases h
      rw [hmade] at hclone
      have hs : ({ s with heap } : State).weight ≤ s.weight + 0 := weight_withHeap_le hclone
      exact hsmall (.reply hs _) (by decide)
    · next heap new hmade =>
      cases h
      rw [hmade] at hclone
      have hs : ({ s with heap } : State).weight ≤ s.weight + 0 := weight_withHeap_le hclone
      have hvacate := weight_vacate_le { s with heap } name
      have hvacate' := weight_vacate_le (State.vacate { s with heap } name) source
      exact hsmall (within_tasks (n := 15) (by omega) (Nat.le_refl _)) (by decide)
  | sameAddress name other =>
    simp only [plan, bind_eq_ok] at hplan
    obtain ⟨g, -, g', -, h⟩ := hplan
    split at h
    · cases h
    · obtain ⟨_, -, h⟩ := bind_eq_ok.1 h
      cases h
      exact hsmall (hreply _) (by decide)
  | sameOwner name other =>
    simp only [plan, bind_eq_ok] at hplan
    obtain ⟨g, -, g', -, h⟩ := hplan
    split at h
    · cases h
    · obtain ⟨_, -, h⟩ := bind_eq_ok.1 h
      cases h
      exact hsmall (hreply _) (by decide)
  | read name access =>
    simp only [plan, bind_eq_ok] at hplan
    obtain ⟨g, -, _, -, h⟩ := hplan
    split at h <;> cases h <;>
      exact hsmall (hreply _) (by decide)
  | inspect name =>
    simp only [plan, bind_eq_ok] at hplan
    obtain ⟨g, -, h⟩ := hplan
    cases h
    exact hsmall (hreply _) (by decide)
  | debug name style =>
    simp only [plan, bind_eq_ok] at hplan
    obtain ⟨g, -, h⟩ := hplan
    split at h <;> cases h
    exact hsmall (hreply _) (by decide)
  | showPointer name style =>
    simp only [plan, bind_eq_ok] at hplan
    obtain ⟨g, -, _, -, h⟩ := hplan
    split at h <;> cases h
    exact hsmall (hreply _) (by decide)
  | project name target f =>
    obtain ⟨-, g, f', ty, -, -, -, rfl⟩ := plan_project hplan
    exact hsmall within_project (by decide)
  | projectClone name target f =>
    simp only [plan, bind_eq_ok] at hplan
    obtain ⟨_, -, g, -, h⟩ := hplan
    split at h
    · cases h
    · cases h
      exact hsmall within_projectClone (by decide)
  | link name child =>
    simp only [plan, bind_eq_ok] at hplan
    obtain ⟨g, -, g', -, node, -, h⟩ := hplan
    cases h
    have hs : ({ s with heap := s.heap.modifyResource node fun r =>
        { r with links := r.links ++ [g] } } : State).weight ≤ s.weight + handleWeight := by
      refine weight_withHeap_le (Heap.weight_modifyResource_le fun r => ?_)
      simp [Resource.weight, Nat.mul_add]
    exact hsmall (.reply ((weight_vacate_le _ child).trans hs) _) (by decide)
  | unlink name target index =>
    simp only [plan, bind_eq_ok] at hplan
    obtain ⟨_, -, g, -, node, -, h⟩ := hplan
    split at h
    · cases h
    · next g' _ =>
      cases h
      have hs : ({ s with heap := s.heap.modifyResource node fun r =>
          { r with links := r.links.eraseIdx index } } : State).weight ≤ s.weight + 0 := by
        refine weight_withHeap_le (Heap.weight_modifyResource_le fun r => ?_)
        exact Nat.mul_le_mul_left _ (List.length_eraseIdx_le ..)
      have hput := weight_put_le { s with heap := s.heap.modifyResource node fun r =>
        { r with links := r.links.eraseIdx index } } target g'
      exact hsmall (.reply (n := handleWeight) (by omega) _) (by decide)
  | churn name threads rounds =>
    simp only [plan, bind_eq_ok] at hplan
    obtain ⟨g, -, h⟩ := hplan
    cases h
    have hs : ({ s with heap := (s.heap.churn g rounds threads).1 } : State).weight ≤ s.weight + 0 :=
      weight_withHeap_le (Heap.weight_churn_le g rounds threads)
    exact hsmall (.reply hs _) (by decide)
  | raceDrop names =>
    have htake := takeAll_le s names
    simp only [plan] at hplan
    split at hplan <;> cases hplan <;> next hmade =>
      rw [hmade] at htake
      refine ⟨2 + 2 * handleWeight * names.length, ?_, within_tasks htake.1 ?_⟩
      · simp only [Command.weight, commandWeight]
        omega
      · have hlength := htake.2
        simp only [List.map_append, List.map_cons, List.map_nil, List.sum_append, List.sum_cons,
          List.sum_nil, List.map_map, Function.comp_def, List.map_const', List.sum_replicate_nat,
          Task.weight, Pending.weight, List.length_nil, handleWeight] at hlength ⊢
        omega
  | raceLock name observer =>
    simp only [plan, bind_eq_ok] at hplan
    obtain ⟨g, -, _, -, h⟩ := hplan
    have hvacate := weight_vacate_le s name
    have hvacate' := weight_vacate_le (s.vacate name) observer
    split at h
    · cases h
      exact hsmall (within_tasks (n := 5) hvacate (Nat.le_refl _)) (by decide)
    · split at h <;> cases h
      · exact hsmall (within_tasks (n := 10) (hvacate'.trans hvacate) (Nat.le_refl _)) (by decide)
      · exact hsmall (within_tasks (n := 20) (hvacate'.trans hvacate) (Nat.le_refl _)) (by decide)
  | leak block side n =>
    refine hsmall (within_setBlock (fun b b' hlend => ?_) hplan) (by decide)
    obtain ⟨-, rfl⟩ := Block.lend_eq_some hlend
    rfl
  | unleak block side n =>
    refine hsmall (within_setBlock (fun b b' htake => ?_) hplan) (by decide)
    obtain ⟨-, -, rfl⟩ := Block.takeBack_eq_some htake
    rfl
  | slots =>
    cases hplan
    exact hsmall (hreply _) (by decide)

/-- What a command makes and leaves to be done is lighter than the command. -/
theorem weight_begin_lt (s : State) (c : Command) :
    (s.begin c).1.weight + ((s.begin c).2.map Task.weight).sum < s.weight + c.weight := by
  suffices h : ∃ n < c.weight, Within s n (s.begin c) by
    obtain ⟨n, hn, hwithin⟩ := h
    exact Nat.lt_of_le_of_lt hwithin (Nat.add_lt_add_left hn _)
  rw [begin]
  split
  · next next hplan => exact within_plan hplan
  · next reason _ =>
    have hone : 1 < commandWeight := by decide
    exact ⟨1, hone.trans_le (commandWeight_le c), .reply (Nat.le_refl _) _⟩

end State

/-! ### Steps -/

namespace Machine

variable {m : Machine}

theorem weight_running (s : State) (stack : List Task) :
    (Machine.mk s .running stack).weight = s.weight + (stack.map Task.weight).sum := rfl

theorem weight_unwinding (s : State) (e : Panic) (stack : List Task) :
    (Machine.mk s (.unwinding e) stack).weight = s.weight + (stack.map Task.weight).sum + 1 := rfl

/-- A handle that is put back was paid for, and so was the drop of one that it displaces. -/
theorem weight_settle_lt (s : State) (puts : List (String × Handle)) (a : Answer)
    (rest : List Task) :
    (settle s puts a rest).weight <
      s.weight + (Task.settle puts (.answer a)).weight + (rest.map Task.weight).sum := by
  rcases puts with _ | ⟨⟨slot, h⟩, puts⟩
  · have hs : ({ s with answer := a } : State).weight = s.weight := rfl
    simp only [settle, weight_running, hs, Task.weight, List.length_nil]
    omega
  · have hput := State.weight_put s slot h
    have hdrops : (((s.slots.get? slot).toList.map Task.drop).map Task.weight).sum =
        handleWeight * (s.slots.get? slot).toList.length := by
      cases s.slots.get? slot <;> rfl
    simp only [settle, weight_running, List.map_append, List.sum_append, hdrops, List.map_cons,
      List.sum_cons, Task.weight, List.length_cons, handleWeight] at hput ⊢
    omega

theorem weight_resolve_lt (s : State) (puts : List (String × Handle)) {pending : Pending}
    (rest : List Task) (hpending : ∀ a, pending ≠ .answer a) :
    (resolve s puts pending rest).weight <
      s.weight + (Task.settle puts pending).weight + (rest.map Task.weight).sum := by
  have hanswer : ∀ s' a, s'.weight ≤ s.weight → (Machine.mk s' .running
      (.settle puts (.answer a) :: rest)).weight <
        s.weight + (1 + (handleWeight + 1) * puts.length + 1) + (rest.map Task.weight).sum := by
    intro s' a hs'
    simp only [weight_running, List.map_cons, List.sum_cons, Task.weight, Pending.weight]
    omega
  cases pending with
  | answer a => exact absurd rfl (hpending a)
  | failed layout onFailure => cases onFailure <;> exact hanswer _ _ (Nat.le_refl _)
  | observed =>
    have hmore : ∀ m : Machine,
        m.weight < s.weight + (1 + (handleWeight + 1) * puts.length + 1) +
          (rest.map Task.weight).sum →
        m.weight < s.weight + (Task.settle puts .observed).weight + (rest.map Task.weight).sum := by
      intro m hm
      simp only [Task.weight, Pending.weight]
      omega
    simp only [resolve]
    split
    · exact hmore _ (hanswer _ _ (Nat.le_refl _))
    · next w _ =>
      have hlock : (s.heap.lock w).1.weight ≤ s.heap.weight + 0 := Heap.weight_lock_le
      split <;> next heap _ hmade =>
        rw [hmade] at hlock
        have hs : ({ s with heap } : State).weight ≤ s.weight + 0 :=
          State.weight_withHeap_le hlock
        first
        | exact hmore _ (hanswer _ _ hs)
        | simp only [weight_running, List.map_append, List.map_cons, List.map_nil, List.sum_append,
            List.sum_cons, List.sum_nil, Task.weight, Pending.weight]
          omega

theorem weight_advance_lt (s : State) (t : Task) (rest : List Task) :
    (advance s t rest).weight < s.weight + t.weight + (rest.map Task.weight).sum := by
  cases t with
  | perform c =>
    have hlt := State.weight_begin_lt s c
    simp only [advance, run, weight_running, List.map_append, List.sum_append, Task.weight]
    omega
  | report | join =>
    simp only [advance, weight_running, State.weight_record, Task.weight]
    omega
  | drop h =>
    have hle := State.weight_giveBack_le s h
    simp only [advance, run, weight_running, List.map_append, List.sum_append, Task.weight,
      handleWeight]
    omega
  | finish l =>
    have hle := State.weight_giveBackWeak_le s l
    simp only [advance, weight_running, Task.weight]
    omega
  | destroy r =>
    have hle := State.weight_destroy_le s r
    simp only [advance, run, weight_running, List.map_append, List.sum_append, Task.weight]
    omega
  | throw e =>
    simp only [advance, Task.weight]
    split
    · rw [weight_running]
      omega
    · rw [weight_unwinding]
      omega
  | resume e =>
    simp only [advance, weight_unwinding, Task.weight]
    omega
  | spawn handles =>
    rcases handles with _ | ⟨h, handles⟩
    all_goals
      simp only [advance, weight_running, List.map_cons, List.sum_cons, List.length_nil,
        List.length_cons, Task.weight, handleWeight]
      omega
  | settle puts pending =>
    cases pending with
    | answer a => exact weight_settle_lt s puts a rest
    | failed | observed => exact weight_resolve_lt s puts rest (by simp)

theorem weight_unwind_lt (s : State) (e : Panic) (t : Task) (rest : List Task) :
    (unwind s e t rest).weight < s.weight + t.weight + (rest.map Task.weight).sum + 1 := by
  have hpos : 0 < t.weight := by
    cases t with
    | perform c => exact Nat.lt_of_lt_of_le (by decide) (commandWeight_le c)
    | drop | report | finish | destroy | throw | resume | join => exact Nat.succ_pos _
    | spawn | settle =>
      simp only [Task.weight]
      omega
  have hon : (Machine.mk s (.unwinding e) rest).weight <
      s.weight + t.weight + (rest.map Task.weight).sum + 1 := by
    rw [weight_unwinding]
    omega
  cases t with
  | perform | report | destroy | throw | join => exact hon
  | resume q =>
    simp only [unwind, weight_unwinding, Task.weight]
    omega
  | drop h =>
    have hle := State.weight_giveBack_le s h
    simp only [unwind, run, weight_running, List.map_append, List.sum_append, List.map_cons,
      List.sum_cons, Task.weight, handleWeight]
    omega
  | finish l =>
    have hle : (s.abandon l).weight ≤ s.weight + 0 :=
      State.weight_withHeap_le (Heap.weight_modifyBlock_le fun _ => rfl)
    simp only [unwind, weight_unwinding, Task.weight]
    omega
  | spawn handles =>
    rcases handles with _ | ⟨h, handles⟩
    · exact hon
    · simp only [unwind, weight_running, List.map_cons, List.sum_cons, List.length_cons,
        Task.weight, handleWeight]
      omega
  | settle puts pending =>
    simp only [unwind, weight_running, List.map_cons, List.sum_cons, Task.weight, Pending.weight]
    omega

/-- Every step makes a machine lighter. -/
theorem weight_step_lt (h : m.halted = false) : m.step.weight < m.weight := by
  obtain ⟨s, control, _ | ⟨t, rest⟩⟩ := m
  · cases control <;> cases h
  · cases control with
    | running =>
      have hlt := weight_advance_lt s t rest
      simp only [step, weight_running, List.map_cons, List.sum_cons]
      omega
    | unwinding e =>
      have hlt := weight_unwind_lt s e t rest
      simp only [step, weight_unwinding, List.map_cons, List.sum_cons]
      omega
    | aborted layout => cases h

end Machine

end SharedOwnership
