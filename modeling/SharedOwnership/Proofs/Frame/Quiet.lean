import SharedOwnership.Proofs.Frame.Step

/-!
# Operations that enter no release action

A command that enters no release action is soon over: it has raised a counter by one unit at most,
and what is left to do is to drop a handle of a block that it works on, to lock an observer, and to
put handles back into vacant slots.

## Main definitions

* `Machine.Enters` — whether the next step enters a release action.
* `Command.isSingle` — whether a command stands for one operation.
* `Command.Calm` — what may be left to do of a command.
* `State.Balanced` — counters that differ by one unit at most.
* `Machine.Quiet` — what such a command has changed in the end.

## Main results

* `Machine.quiet_of_worksOff` — whatever it is, it changes only that.
-/

namespace SharedOwnership

/-- A handle holds a unit of kind `k` of the block labelled `l`. -/
def Handle.holds (k : Kind) (l : Nat) (h : Handle) : Bool := h.kind = k ∧ h.block = some l

/-! ### Counters -/

namespace Heap

variable {heap heap' : Heap} {l : Nat} {b b' : Block}

theorem count_setBlock (hb : heap.blocks.get? l = some b) (b' : Block) (k : Kind) (l' : Nat) :
    (heap.setBlock l b').count k l' = if l = l' then b'.counts.get k else heap.count k l' := by
  rw [count, get?_setBlock hb]
  by_cases hl : l = l'
  · rw [if_pos hl, if_pos hl]
  · rw [if_neg hl, if_neg hl, count]

/-- No counter is lower than before, and none is higher by more than one unit. -/
def Grows (heap heap' : Heap) : Prop :=
  ∀ k l, heap.count k l ≤ heap'.count k l ∧ heap'.count k l ≤ heap.count k l + 1

theorem grows_refl (heap : Heap) : heap.Grows heap := fun _ _ => ⟨le_rfl, Nat.le_succ _⟩

theorem grows_of_blocks (h : heap'.blocks = heap.blocks) : heap.Grows heap' := by
  intro k l
  rw [count, count, h]
  exact ⟨le_rfl, Nat.le_succ _⟩

theorem grows_setBlock (hb : heap.blocks.get? l = some b)
    (h : ∀ k, b.counts.get k ≤ b'.counts.get k ∧ b'.counts.get k ≤ b.counts.get k + 1) :
    heap.Grows (heap.setBlock l b') := by
  intro k l'
  rw [count_setBlock hb]
  split
  · next heq => rw [← heq, count_of_get? k hb]; exact h k
  · exact ⟨le_rfl, Nat.le_succ _⟩

/-- A unit more of one kind. -/
theorem grows_modify (hb : heap.blocks.get? l = some b) {j : Kind}
    (h : b'.counts = b.counts.modify j (· + 1)) : heap.Grows (heap.setBlock l b') := by
  refine grows_setBlock hb fun k => ?_
  rw [h, Counts.get_modify]
  split <;> omega

theorem grows_share (heap : Heap) (h : Handle) (k : Kind) : heap.Grows (heap.share h k).1 := by
  cases hl : h.block with
  | none =>
    simp only [share, hl]
    exact heap.grows_refl
  | some l =>
    cases hb : heap.blocks.get? l with
    | none =>
      simp only [share, hl, addUnit, hb]
      exact heap.grows_refl
    | some b =>
      rw [share_of_block hl hb]
      exact grows_modify hb (b.counts_addUnit k)

/-- The owner that a lock gives holds the unit that the lock adds. -/
theorem count_lock (heap : Heap) (w : Handle) (k : Kind) (l : Nat) :
    heap.count k l + (heap.lock w).2.toOption.toList.countP (·.holds k l) ≤
      (heap.lock w).1.count k l := by
  have hempty : ([.empty .strong w.ty] : List Handle).countP (·.holds k l) = 0 := by
    simp [Handle.holds, Handle.empty]
  cases hl : w.block with
  | none =>
    simp only [lock, hl, Except.toOption, Option.toList, hempty]
    exact le_rfl
  | some l' =>
    cases hb : heap.blocks.get? l' with
    | none =>
      simp only [lock, hl, hb, Except.toOption, Option.toList, hempty]
      exact le_rfl
    | some b =>
      simp only [lock, hl, hb]
      split
      · simp only [Except.toOption, Option.toList, hempty]
        exact le_rfl
      · next b' hb' =>
        obtain ⟨-, -, rfl⟩ := Block.promote_eq_some.1 hb'
        rw [count_setBlock hb]
        by_cases heq : l' = l
        · subst heq
          rw [if_pos rfl, count_of_get? k hb, Counts.get_modify]
          cases k <;> simp [Except.toOption, Handle.holds]
        · rw [if_neg heq]
          simp [Except.toOption, Handle.holds, heq]
      · exact le_rfl

theorem grows_lock (heap : Heap) (h : Handle) : heap.Grows (heap.lock h).1 := by
  cases hl : h.block with
  | none =>
    simp only [lock, hl]
    exact heap.grows_refl
  | some l =>
    cases hb : heap.blocks.get? l with
    | none =>
      simp only [lock, hl, hb]
      exact heap.grows_refl
    | some b =>
      simp only [lock, hl, hb]
      split
      · exact heap.grows_refl
      · next b' hb' =>
        obtain ⟨-, -, rfl⟩ := Block.promote_eq_some.1 hb'
        exact grows_modify (j := .strong) hb rfl
      · exact heap.grows_refl

end Heap

theorem Task.grows_make (t : Task) (heap : Heap) (h : Handle) (k : Kind) :
    heap.Grows (t.make heap h k).1 := by
  rw [make]
  split
  · exact heap.grows_lock h
  · exact heap.grows_share h k

/-- A new block has one unit of each kind. -/
theorem Supply.grows_adopt (a : Supply) (heap : Heap) : heap.Grows (a.adopt heap) := by
  intro k l
  by_cases hl : l = heap.blocks.next
  · have hnone : heap.blocks.get? l = none := Table.get?_of_next_le hl.ge
    have hone : (a.adopt heap).count k l = 1 := by
      rw [Heap.count, adopt, Heap.get?_allocate, Heap.blocks_keep, if_pos hl]
      cases k <;> rfl
    have hzero : heap.count k l = 0 := by rw [Heap.count, hnone]
    omega
  · rw [Heap.count, Heap.count, a.get?_blocks_adopt_of_ne hl]
    exact ⟨le_rfl, Nat.le_succ _⟩

/-! ### What is left to do -/

namespace Task

/-- The handles that a task drops. -/
def dropped : Task → List Handle
  | .drop h => [h]
  | .spawn hs => hs
  | _ => []

/-- The observer that a task locks. -/
def observed : Task → List Handle
  | .settle ((_, w) :: _) .observed => [w]
  | _ => []

theorem dropped_map_drop (hs : List Handle) : (hs.map .drop).flatMap dropped = hs := by
  simp [List.flatMap_map, dropped]

/-- Whether a task only drops handles and puts handles back. -/
def isCalm : Task → Bool
  | .drop _ | .spawn _ | .join | .resume _ | .settle _ _ => true
  | _ => false

end Task

/-- Whether a command stands for one operation; of the others, some carry out several, and some lend
units and take them back. -/
def Command.isSingle : Command → Bool
  | .churn _ _ _ | .raceDrop _ | .leak _ _ _ | .unleak _ _ _ => false
  | _ => true

/-- What may be left to do, in the state `s'`, of a command that was begun in the state `s` and
enters no release action. -/
structure Command.Calm (c : Command) (s s' : State) (ts : List Task) : Prop where
  calm : ∀ t ∈ ts, t.isCalm
  /-- Handles go back into slots that are vacant, each into one of its own. -/
  vacant : ∀ x ∈ (ts.flatMap Task.puts).map Prod.fst, s'.slots.get? x = none
  nodup : ((ts.flatMap Task.puts).map Prod.fst).Nodup
  /-- The handles that are dropped or locked are of blocks that the command works on. -/
  reaches : ∀ h ∈ ts.flatMap Task.dropped ++ ts.flatMap Task.observed, ∀ l, h.block = some l →
    c.Reaches s l

/-- No counter has lost more than one unit once the tasks are done, and none has got more than
one. -/
def State.Balanced (s s' : State) (ts : List Task) : Prop :=
  ∀ k l, s.heap.count k l + (ts.flatMap Task.dropped).countP (·.holds k l) ≤
      s'.heap.count k l + 1 ∧
    s'.heap.count k l + (ts.flatMap Task.observed).length ≤ s.heap.count k l + 1

theorem State.mem_takeAll {s s' : State} {names : List String} {hs : List Handle}
    {reason : Option Refusal} {h : Handle} (htake : s.takeAll names = (s', hs, reason))
    (hh : h ∈ hs) : ∃ name ∈ names, s.slots.get? name = some h := by
  induction names generalizing s hs reason with
  | nil =>
    cases htake
    cases hh
  | cons name names ih =>
    rw [takeAll] at htake
    split at htake
    · cases htake
      cases hh
    · next g hg =>
      rcases hrest : (s.vacate name).takeAll names with ⟨s₁, hs₁, reason₁⟩
      rw [hrest] at htake
      cases htake
      rcases List.mem_cons.1 hh with rfl | hh
      · exact ⟨name, List.mem_cons_self, handle_eq_ok.1 hg⟩
      · obtain ⟨name', hname', hget⟩ := ih hrest hh
        have hne : name' ≠ name := by
          rintro rfl
          rw [vacate, Slots.get?_erase_self] at hget
          cases hget
        exact ⟨name', List.mem_cons_of_mem _ hname',
          (Slots.get?_erase_of_ne _ hne).symm.trans hget⟩

namespace Command

variable {s s' : State} {c : Command} {next : State × List Task}

/-- Some drops, and then the end of the command. -/
theorem calm_settle (ts : List Task) {puts : List (String × Handle)} {pending : Pending}
    (hts : ∀ t ∈ ts, t.isCalm ∧ t.puts = [] ∧ t.observed = [])
    (hdropped : ∀ h ∈ ts.flatMap Task.dropped, ∀ l, h.block = some l → c.Reaches s l)
    (hobserved : ∀ h ∈ (Task.settle puts pending).observed, ∀ l, h.block = some l →
      c.Reaches s l)
    (hvacant : ∀ x ∈ puts.map Prod.fst, s'.slots.get? x = none)
    (hnodup : (puts.map Prod.fst).Nodup) : c.Calm s s' (ts ++ [.settle puts pending]) := by
  have hputs : (ts ++ [Task.settle puts pending]).flatMap Task.puts = puts := by
    have hnone : ts.flatMap Task.puts = [] := List.flatMap_eq_nil_iff.2 fun t ht => (hts t ht).2.1
    simp [hnone, Task.puts]
  refine ⟨?_, ?_, ?_, ?_⟩
  · intro t ht
    rcases List.mem_append.1 ht with ht | ht
    · exact (hts t ht).1
    · rw [List.mem_singleton.1 ht]
      rfl
  · rwa [hputs]
  · rwa [hputs]
  · have hnone : ts.flatMap Task.observed = [] :=
      List.flatMap_eq_nil_iff.2 fun t ht => (hts t ht).2.2
    intro h hh
    simp only [List.flatMap_append, hnone, List.nil_append, List.flatMap_cons, List.flatMap_nil,
      List.append_nil, Task.dropped] at hh
    exact (List.mem_append.1 hh).elim (hdropped h) (hobserved h)

namespace Effect

/-- A command whose allocation does not fail leaves little to do. -/
theorem calm (heffect : c.Effect s next)
    (hspared : ∀ a onFailure puts, ¬ c.Fails s a onFailure puts) : c.Calm s next.1 next.2 := by
  have hreply : ∀ (s' : State) (a : Answer), c.Calm s (s'.reply a).1 (s'.reply a).2 := by
    intro s' a
    exact calm_settle [] (by simp) (by simp) (by simp [Task.observed]) (by simp) (by simp)
  have hreaches : ∀ {name h}, name ∈ c.names → s.slots.get? name = some h →
      ∀ l, h.block = some l → c.Reaches s l := by
    intro name h hname hg l hl
    exact .inl ⟨h, ⟨name, hname, hg⟩, hl⟩
  -- one handle is dropped, and what a panic leaves then is answered
  have hdrop : ∀ {s' : State} {name : String} {h : Handle} {puts : List (String × Handle)}
      {a : Answer} (panic : Option Panic), name ∈ c.names → s.slots.get? name = some h →
      (∀ x ∈ puts.map Prod.fst, s'.slots.get? x = none) → (puts.map Prod.fst).Nodup →
      c.Calm s s' ((.drop h :: panic.toList.map .resume) ++ [.settle puts (.answer a)]) := by
    intro s' name h puts a panic hname hg hvacant hnodup
    refine calm_settle (.drop h :: panic.toList.map .resume) ?_ ?_ (by simp [Task.observed])
      hvacant hnodup
    · cases panic <;> simp [Task.isCalm, Task.puts, Task.observed]
    · have hh := hreaches hname hg
      cases panic <;> simpa [Task.dropped] using hh
  cases heffect with
  | fail hfails => exact absurd hfails (hspared _ _ _)
  | tell | adopt | empty | overflow | obtain | projectClone | project | take | swap | link
  | unlink | lend | churn => exact hreply _ _
  | replace hsupplies hadopts hslots hg =>
    exact hdrop none (by simp [names]) hg (by simp [State.vacate]) (by simp)
  | assign hpair hmade =>
    obtain ⟨hne, hg, -⟩ := State.pair_eq_ok hpair
    refine hdrop none (by simp [names]) hg ?_ (by simpa using hne.symm)
    simp [State.vacate, Slots.get?_erase]
  | @unclone name target f ty h copy heap e hg hv hty hmade hpointer =>
    obtain rfl : h = copy := (Heap.clone_eq_ok hmade).symm
    exact hdrop (some e) (by simp [names]) hg (by simp) (by simp)
  | @unproject name target f h e hg hpointer =>
    exact hdrop (some e) (by simp [names]) hg (by simp) (by simp)
  | drop hg | raceAlone hg => exact hdrop none (by simp [names]) hg (by simp) (by simp)
  | reset hg => exact hdrop none (by simp [names]) hg (by simp [State.vacate]) (by simp)
  | @dropOnThread name h hg =>
    refine calm_settle [.spawn [h]] ?_ ?_ (by simp [Task.observed]) (by simp) (by simp)
    · simp [Task.isCalm, Task.puts, Task.observed]
    · simpa [Task.dropped] using hreaches (by simp [names]) hg
  | @raceDrop names s' hs reason htake ts hts a =>
    refine calm_settle ts ?_ ?_ (by simp [Task.observed]) (by simp) (by simp)
    · rcases hts with rfl | rfl <;> simp [Task.isCalm, Task.puts, Task.observed]
    · have hdropped : ts.flatMap Task.dropped = hs := by
        rcases hts with rfl | rfl
        · simp [Task.dropped]
        · exact Task.dropped_map_drop hs
      intro h hh
      obtain ⟨name, hname, hg⟩ := State.mem_takeAll htake (hdropped ▸ hh)
      exact hreaches hname hg
  | @raceLock name observer h w hne hg hw t ht pending =>
    refine calm_settle [t] ?_ ?_ ?_ (by simp [State.vacate]) (by simp)
    · rcases ht with rfl | rfl <;> simp [Task.isCalm, Task.puts, Task.observed]
    · have hh := hreaches (by simp [names]) hg
      rcases ht with rfl | rfl <;> simpa [Task.dropped]
    · have hh := hreaches (by simp [names]) hw
      cases pending with
      | observed => simpa [Task.observed]
      | answer | failed => simp [Task.observed]

/-- And it has raised the counters by one unit at most, if it stands for one operation. -/
theorem balanced (heffect : c.Effect s next)
    (hspared : ∀ a onFailure puts, ¬ c.Fails s a onFailure puts) (hsingle : c.isSingle) :
    s.Balanced next.1 next.2 := by
  have hgrows : ∀ {s' : State} {ts : List Task}, s.heap.Grows s'.heap →
      (ts.flatMap Task.dropped).length ≤ 1 → ts.flatMap Task.observed = [] →
      s.Balanced s' ts := by
    intro s' ts hgrows hdropped hobserved k l
    have hle : (ts.flatMap Task.dropped).countP (·.holds k l) ≤ 1 :=
      List.countP_le_length.trans hdropped
    obtain ⟨hlo, hhi⟩ := hgrows k l
    rw [hobserved, List.length_nil]
    omega
  have hreply : ∀ {s' : State} (a : Answer), s.heap.Grows s'.heap →
      s.Balanced (s'.reply a).1 (s'.reply a).2 := by
    intro s' a hgrown
    exact hgrows hgrown (by simp [State.reply, Task.dropped]) (by simp [State.reply, Task.observed])
  have hmake : ∀ {t : Task} {k h heap made}, t.make s.heap h k = (heap, made) →
      s.heap.Grows heap := by
    intro t k h heap made hmade
    have hmade' := t.grows_make s.heap h k
    rwa [hmade] at hmade'
  have hclone : ∀ {h heap made}, s.heap.clone h = (heap, made) → s.heap.Grows heap := by
    intro h heap made hmade
    have hmade' := s.heap.grows_share h h.kind
    rwa [← Heap.clone, hmade] at hmade'
  have hadopted : ∀ {a : Supply} {s' : State}, s.Adopts a s' → s.heap.Grows s'.heap := by
    intro a s' hadopts
    rw [hadopts.heap]
    exact a.grows_adopt s.heap
  have hsame : s.heap.Grows s.heap := s.heap.grows_refl
  cases heffect with
  | fail hfails => exact absurd hfails (hspared _ _ _)
  | tell | empty | project | take | swap => exact hreply _ hsame
  | link | unlink => exact hreply _ (Heap.grows_of_blocks rfl)
  | @adopt _ a s' target hsupplies hadopts =>
    have hgrown : s.heap.Grows s'.heap := hadopted hadopts
    exact hreply _ hgrown
  | overflow hasks hmade => exact hreply _ (hmake hmade)
  | obtain hasks hmade => exact hreply _ (hmake hmade)
  | projectClone hg hv hty hmade => exact hreply _ (hclone hmade)
  | @replace name h value terms script a s' hsupplies hadopts =>
    have hgrown : s.heap.Grows s'.heap := hadopted hadopts
    exact hgrows hgrown (by simp [Task.dropped]) (by simp [Task.observed])
  | assign hpair hmade =>
    exact hgrows (hclone hmade) (by simp [Task.dropped]) (by simp [Task.observed])
  | unclone hg hv hty hmade =>
    exact hgrows (hclone hmade) (by simp [Task.dropped]) (by simp [Task.observed])
  | unproject | drop | dropOnThread | reset | raceAlone =>
    exact hgrows hsame (by simp [Task.dropped]) (by simp [Task.observed])
  | @raceLock name observer h w hne hg hw t ht pending =>
    intro k l
    have hdropped : ([t, .settle [(observer, w)] pending].flatMap Task.dropped).length ≤ 1 := by
      rcases ht with rfl | rfl <;> simp [Task.dropped]
    have hobserved : ([t, .settle [(observer, w)] pending].flatMap Task.observed).length ≤ 1 := by
      rcases ht with rfl | rfl <;> cases pending <;> simp [Task.observed]
    have hle := (List.countP_le_length (p := (·.holds k l))).trans hdropped
    exact ⟨Nat.add_le_add_left hle _, Nat.add_le_add_left hobserved _⟩
  | lend hc hb a =>
    cases c with
    | leak | unleak => cases hsingle
    | _ => cases hc
  | churn | raceDrop => cases hsingle

end Effect

end Command

/-! ### One step -/

namespace Machine

/-- The next step enters a release action: that of a block, or the one that was supplied for a block
that cannot be allocated. -/
def Enters (m : Machine) : Prop :=
  (∃ l, m.Starts l) ∨ ∃ c a onFailure puts, m.Performs c ∧ c.Fails m.state a onFailure puts

variable {m : Machine} {t : Task} {rest above new : List Task} {s₀ s : State} {c : Command}
  {h : Handle}

/-- A drop that starts no release action gives back the unit of its handle, and that is all. -/
theorem giveBack_of_not_enters (hm : m.Reachable) (hstack : m.stack = .drop h :: rest)
    (halive : ¬ m.Aborted) (hquiet : ¬ m.Enters) : (m.state.giveBack h).2 = [] ∧
      ∀ k l, m.state.heap.count k l ≤
          (m.state.giveBack h).1.heap.count k l + ([h] : List Handle).countP (·.holds k l) ∧
        (m.state.giveBack h).1.heap.count k l ≤ m.state.heap.count k l := by
  have hL : (m.state.ledger (.drop h :: rest)).Sound := hstack ▸ ReachableBy.sound hm
  have hstep : m.step.state = (m.state.giveBack h).1 := by
    obtain ⟨s, control, stack⟩ := m
    obtain rfl : stack = .drop h :: rest := hstack
    cases control with
    | running | unwinding => rfl
    | aborted layout => exact absurd ⟨layout, rfl⟩ halive
  have hgives := State.givesBack hL
  generalize m.state.giveBack h = next at hgives hstep
  cases hgives with
  | empty hl => exact ⟨rfl, fun k l => ⟨Nat.le_add_right .., le_rfl⟩⟩
  | unit l b hl hb hc =>
    refine ⟨rfl, fun k l' => ?_⟩
    simp only [Heap.count_setBlock hb, Block.removeUnit, Counts.get_modify]
    by_cases heq : l = l'
    · subst heq
      rw [if_pos rfl, Heap.count_of_get? k hb]
      by_cases hk : k = h.kind
      · subst hk
        simp [Handle.holds, hl]
        omega
      · rw [if_neg hk]
        exact ⟨Nat.le_add_right .., le_rfl⟩
    · rw [if_neg heq]
      exact ⟨Nat.le_add_right .., le_rfl⟩
  | release l b action hk hl hb hc haction =>
    refine absurd (.inl ⟨l, b, { b.removeUnit .strong with action := none }, hb, ?_, ?_, rfl⟩)
      hquiet
    · rw [haction]
      rfl
    · rw [hstep, State.heap_start]
      exact Heap.get?_setBlock_self hb _
  | free l b hk hl hb hc =>
    have haction := (hL.of_last_observer (State.mem_handles_drop _ h rest) hk hl hb hc).1
    have hstrong : ¬ 0 < b.counts.strong := by
      rw [← (hL.accounts l b hb).live, haction]
      exact Bool.false_ne_true
    refine ⟨rfl, fun k l' => ?_⟩
    by_cases heq : l = l'
    · subst heq
      rw [Heap.count_of_get? k hb]
      simp only [Heap.count, Table.get?_erase, if_true]
      cases k <;> simp [Counts.get, Handle.holds, hk, hl] <;> omega
    · simp only [Heap.count, Table.get?_erase, if_neg heq]
      exact ⟨Nat.le_add_right .., le_rfl⟩

/-- Calm tasks that take the place of one task, and put back and drop no more than it does. -/
theorem calm_append (hcalm : c.Calm s₀ m.state (t :: above)) (hnew : ∀ t' ∈ new, t'.isCalm)
    (hputs : ((new.flatMap Task.puts).map Prod.fst).Sublist (t.puts.map Prod.fst))
    (hslots : ∀ x ∈ ((new ++ above).flatMap Task.puts).map Prod.fst,
      m.state.slots.get? x = none → s.slots.get? x = none)
    (hreaches : ∀ h ∈ new.flatMap Task.dropped ++ new.flatMap Task.observed, ∀ l,
      h.block = some l → ∃ g ∈ t.dropped ++ t.observed, g.block = some l) :
    c.Calm s₀ s (new ++ above) := by
  have hsublist : (((new ++ above).flatMap Task.puts).map Prod.fst).Sublist
      (((t :: above).flatMap Task.puts).map Prod.fst) := by
    simp only [List.flatMap_append, List.flatMap_cons, List.map_append]
    exact hputs.append (.refl _)
  refine ⟨?_, ?_, hcalm.nodup.sublist hsublist, ?_⟩
  · intro t' ht'
    exact (List.mem_append.1 ht').elim (hnew t') fun h => hcalm.calm t' (.tail _ h)
  · intro x hx
    exact hslots x hx (hcalm.vacant x (hsublist.subset hx))
  · intro h hh l hl
    simp only [List.flatMap_append, List.mem_append] at hh
    have hold : ∀ {g}, g ∈ t.dropped ++ t.observed ∨
        g ∈ above.flatMap Task.dropped ++ above.flatMap Task.observed → g.block = some l →
        c.Reaches s₀ l := by
      intro g hg hgl
      refine hcalm.reaches g ?_ l hgl
      simp only [List.flatMap_cons, List.mem_append] at hg ⊢
      tauto
    by_cases hmem : h ∈ new.flatMap Task.dropped ++ new.flatMap Task.observed
    · obtain ⟨g, hg, hgl⟩ := hreaches h hmem l hl
      exact hold (.inl hg) hgl
    · refine hold (.inr ?_) hl
      simp only [List.mem_append] at hmem ⊢
      tauto

/-- A counter makes up for the drops that the new tasks add, and for the lock that they leave
out. -/
theorem balanced_append (hbalanced : s₀.Balanced m.state (t :: above))
    (hcounts : ∀ k l, m.state.heap.count k l +
          (new.flatMap Task.dropped).countP (·.holds k l) ≤
        s.heap.count k l + t.dropped.countP (·.holds k l) ∧
      s.heap.count k l + (new.flatMap Task.observed).length ≤
        m.state.heap.count k l + t.observed.length) : s₀.Balanced s (new ++ above) := by
  intro k l
  obtain ⟨hlo, hhi⟩ := hbalanced k l
  obtain ⟨hlo', hhi'⟩ := hcounts k l
  simp only [List.flatMap_cons, List.countP_append, List.length_append] at hlo hhi
  simp only [List.flatMap_append, List.countP_append, List.length_append]
  omega

namespace Works

/-- What is left to do of a command stays calm. -/
theorem calm (hworks : m.Works t s new) (hm : m.Reachable) (hstack : m.stack = t :: rest)
    (halive : ¬ m.Aborted) (hquiet : ¬ m.Enters) (hcalm : c.Calm s₀ m.state (t :: above)) :
    c.Calm s₀ s (new ++ above) := by
  have ht : t.isCalm = true := hcalm.calm t List.mem_cons_self
  cases hworks with
  | perform | finish | abandon | destroy => cases ht
  | drop h panic =>
    obtain ⟨htasks, -⟩ := giveBack_of_not_enters hm hstack halive hquiet
    have hslots := (m.state.giveBack_leaves h).1
    rw [htasks]
    refine calm_append hcalm ?_ ?_ (fun x _ hx => hslots ▸ hx) ?_ <;>
      cases panic <;> simp [Task.isCalm, Task.puts, Task.dropped, Task.observed]
  | spawn h hs panic =>
    refine calm_append hcalm ?_ ?_ (fun x _ hx => hx) ?_
    · cases panic <;> simp [Task.isCalm]
    · cases panic <;> simp [Task.puts]
    · intro g hg l hl
      refine ⟨g, ?_, hl⟩
      cases panic <;> simpa [Task.dropped, Task.observed] using hg
  | put slot h puts a =>
    have hvacant : m.state.slots.get? slot = none :=
      hcalm.vacant slot (by simp [Task.puts])
    rw [hvacant]
    refine calm_append hcalm (by simp [Task.isCalm]) (by simp [Task.puts]) ?_
      (by simp [Task.dropped, Task.observed])
    intro x hx hnone
    have hne : x ≠ slot := by
      rintro rfl
      have hnodup := hcalm.nodup
      simp only [List.flatMap_cons, Task.puts, List.cons_append, List.map_cons,
        List.nodup_cons] at hnodup
      exact hnodup.1 (by simpa [Task.puts] using hx)
    exact (Slots.get?_put_of_ne _ _ hne).trans hnone
  | @observe slot w puts heap made hlock a =>
    have hmade : (m.state.heap.lock w).2 = made := by rw [hlock]
    refine calm_append hcalm ?_ ?_ (fun x _ hx => hx) ?_
    · cases made <;> simp [Except.toOption, Task.isCalm]
    · cases made <;> simp [Except.toOption, Task.puts]
    · intro g hg l hl
      refine ⟨w, by simp [Task.observed], ?_⟩
      by_contra hw
      cases made with
      | error e => simp [Except.toOption, Task.dropped, Task.observed] at hg
      | ok owner =>
        obtain rfl : g = owner := by
          simpa [Except.toOption, Task.dropped, Task.observed] using hg
        exact Heap.block_lock hmade hw hl
  | resolve puts pending a hheap hslots =>
    refine calm_append hcalm ?_ ?_ (fun x _ hx => hslots ▸ hx) ?_ <;>
      simp [Task.isCalm, Task.puts, Task.dropped, Task.observed]
  | skip t hheap hslots =>
    refine calm_append hcalm ?_ ?_ (fun x _ hx => hslots ▸ hx) ?_ <;> simp

/-- The counters stay balanced. -/
theorem balanced (hworks : m.Works t s new) (hm : m.Reachable) (hstack : m.stack = t :: rest)
    (halive : ¬ m.Aborted) (hquiet : ¬ m.Enters) (hcalm : c.Calm s₀ m.state (t :: above))
    (hbalanced : s₀.Balanced m.state (t :: above)) : s₀.Balanced s (new ++ above) := by
  have ht : t.isCalm = true := hcalm.calm t List.mem_cons_self
  refine balanced_append hbalanced fun k l => ?_
  cases hworks with
  | perform | finish | abandon | destroy => cases ht
  | drop h panic =>
    obtain ⟨htasks, hcounts⟩ := giveBack_of_not_enters hm hstack halive hquiet
    rw [htasks]
    cases panic <;> exact hcounts k l
  | spawn h hs panic =>
    cases panic <;> simp [Task.dropped, Task.observed]
  | put slot h puts a =>
    have hvacant : m.state.slots.get? slot = none := hcalm.vacant slot (by simp [Task.puts])
    simp [hvacant, State.put, Task.dropped, Task.observed]
  | @observe slot w puts heap made hlock a =>
    have howner := m.state.heap.count_lock w k l
    obtain ⟨-, hgrown⟩ := m.state.heap.grows_lock w k l
    rw [hlock] at howner hgrown
    have hdropped : (made.toOption.toList.map Task.drop).flatMap Task.dropped =
        made.toOption.toList := Task.dropped_map_drop _
    have hobserved : (made.toOption.toList.map Task.drop).flatMap Task.observed = [] := by
      cases made <;> rfl
    simpa [hdropped, hobserved, Task.dropped, Task.observed] using ⟨howner, hgrown⟩
  | resolve puts pending a hheap hslots =>
    simp [Heap.count, hheap, Task.dropped, Task.observed]
  | skip t hheap hslots =>
    simp [Heap.count, hheap]

end Works

/-! ### The whole command -/

/-- What is left to do of a command works on no block but those that the command reaches. -/
theorem blocks_of_calm {l : Nat} (hcalm : c.Calm s₀ m.state (t :: above))
    (hstack : m.stack = t :: rest) (hworks : m.Works t s new) (hl : ¬ c.Reaches s₀ l) :
    s.heap.blocks.get? l = m.state.heap.blocks.get? l := by
  have ht : t.isCalm = true := hcalm.calm t List.mem_cons_self
  have hperforms : ∀ c', ¬ m.Performs c' := by
    rintro c' ⟨-, rest', hstack'⟩
    obtain rfl : t = .perform c' := (List.cons.inj (hstack.symm.trans hstack')).1
    cases ht
  refine (hworks.blocks hstack ?_ (fun c' h => absurd h (hperforms c')) ?_).1
  · rintro rfl
    cases ht
  · intro htouches
    cases htouches with
    | command h => exact hperforms _ h
    | @drop g rest' hstack' hg =>
      obtain rfl : t = .drop g := (List.cons.inj (hstack.symm.trans hstack')).1
      exact hl (hcalm.reaches g (by simp [Task.dropped]) l hg)
    | @observe slot w puts rest' hstack' hw =>
      obtain rfl : t = .settle ((slot, w) :: puts) .observed :=
        (List.cons.inj (hstack.symm.trans hstack')).1
      exact hl (hcalm.reaches w (by simp [Task.observed]) l hw)

/-- What a command has changed in the end that enters no release action. -/
structure Quiet (c : Command) (s s' : State) : Prop where
  /-- Only the blocks of its operands have, and one that it has made. -/
  blocks : ∀ l, ¬ c.Reaches s l → l ≠ s.heap.blocks.next →
    s'.heap.blocks.get? l = s.heap.blocks.get? l
  /-- If it is one operation, then each of the counters by one unit at most. -/
  counts : c.isSingle → ∀ k l, s.heap.count k l ≤ s'.heap.count k l + 1 ∧
    s'.heap.count k l ≤ s.heap.count k l + 1

theorem quiet_of_worksOff {n : Machine} (hm : m.Reachable) (hcontrol : m.control = .running)
    (hstack : m.stack = .perform c :: rest) (hquiet : ∀ k, Visits rest m k → ¬ k.Enters)
    (hn : WorksOff rest m n) : Quiet c m.state n.state := by
  have halive := not_aborted_of_running hcontrol
  have hvisits : Visits rest m m := ⟨.refl m, halive, _, [], hstack⟩
  have hspared : ∀ a onFailure puts, ¬ c.Fails m.state a onFailure puts := by
    intro a onFailure puts hfails
    exact hquiet m hvisits (.inr ⟨c, a, onFailure, puts, ⟨hcontrol, rest, hstack⟩, hfails⟩)
  have heffect := m.state.effect_begin c
  have hfirst : m.step = run (m.state.begin c) rest := step_perform hcontrol hstack rfl
  have hrest : WorksOff rest m.step n := hn.step_of_busy [] hstack halive
  -- the invariant, from the first step on
  let Q : Machine → List Task → Prop := fun k above => c.Calm m.state k.state above ∧
    (∀ l, ¬ c.Reaches m.state l → l ≠ m.state.heap.blocks.next →
      k.state.heap.blocks.get? l = m.state.heap.blocks.get? l) ∧
    (c.isSingle → m.state.Balanced k.state above)
  have hbegun : Q m.step (m.state.begin c).2 := by
    rw [hfirst]
    exact ⟨heffect.calm hspared, fun l hl hnext => (heffect.blocks hl hnext).1,
      heffect.balanced hspared⟩
  obtain ⟨above, hcalm, hblocks, hbalanced⟩ := hrest.keeps (by rw [hfirst]; rfl) hbegun <| by
    rintro k t above hk hkstack ⟨hcalm, hblocks, hbalanced⟩ new hworks
    have hk' : Visits rest m k :=
      ⟨.step (.perform c) [] hstack halive hk.comes, hk.alive, hk.busy⟩
    have hreachable : k.Reachable := hm.leads hk'.comes.leads
    have hsilent := hquiet k hk'
    refine ⟨hworks.calm hreachable hkstack hk.alive hsilent hcalm, ?_, ?_⟩
    · intro l hl hnext
      exact (blocks_of_calm hcalm hkstack hworks hl).trans (hblocks l hl hnext)
    · intro hsingle
      exact hworks.balanced hreachable hkstack hk.alive hsilent hcalm (hbalanced hsingle)
  refine ⟨hblocks, fun hsingle k l => ?_⟩
  obtain ⟨hlo, hhi⟩ := hbalanced hsingle k l
  omega

end Machine

end SharedOwnership
