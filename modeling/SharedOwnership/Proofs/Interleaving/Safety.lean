import Mathlib.Tactic.Abel
import SharedOwnership.Proofs.Interleaving.Alone
import SharedOwnership.Proofs.Interleaving.Tally

/-!
# Safety under every interleaving

However threads interleave, every unit is held, and operations in progress borrow handles that were
not dropped. So the release action is started once, when there is no strong unit and none can come
again, and the block is freed once, when no thread can make another access to it. An operation that
is not disturbed does what it does in a single thread.

## Main definitions

* `Threads.Balanced` — the invariant of every interleaving.
* `Threads.Safe` — what threads may rely on.

## Main results

* `Threads.safe_of_reachable` — it holds in whatever threads come to.
-/

namespace SharedOwnership

namespace Frame

variable {handles : Table Kind} {f g : Frame} {b : Block} {e : Effect}

/-- A new handle takes no borrowed one away. -/
theorem Borrows.insert (h : f.Borrows handles) (k : Kind) : f.Borrows (handles.insert k) := by
  have hget : ∀ l j, handles.get? l = some j → (handles.insert k).get? l = some j := by
    intro l j hl
    rw [Table.get?_insert, if_neg (Table.lt_next_of_get? hl).ne, hl]
  cases f with
  | add k' l =>
    obtain ⟨j, hl, hj⟩ := h
    exact ⟨j, hget l j hl, hj⟩
  | load l | exchange l n => exact hget l .weak h
  | give | dispose | release | destroy => trivial

/-- A handle that is dropped is borrowed by no operation. -/
theorem Borrows.erase (h : f.Borrows handles) {l : Nat} (hne : f.borrowed? ≠ some l) :
    f.Borrows (handles.erase l) := by
  have hget : ∀ l' j, f.borrowed? = some l' → handles.get? l' = some j →
      (handles.erase l).get? l' = some j := by
    intro l' j hl' hj
    rw [Table.get?_erase, if_neg, hj]
    rintro rfl
    exact hne hl'
  cases f with
  | add k' l =>
    obtain ⟨j, hl, hj⟩ := h
    exact ⟨j, hget l j rfl hl, hj⟩
  | load l | exchange l n => exact hget l .weak rfl h
  | give | dispose | release | destroy => trivial

/-- What is left of an operation borrows what it borrowed. -/
theorem Access.borrows (he : f.Access b e) (hf : f.Borrows handles) (hg : g ∈ e.frames) :
    g.Borrows handles := by
  cases he with
  | load | retry =>
    obtain rfl := List.mem_singleton.1 hg
    exact hf
  | @giveLast k hone =>
    obtain rfl := List.mem_singleton.1 hg
    cases k <;> trivial
  | dispose | release =>
    obtain rfl := List.mem_singleton.1 hg
    trivial
  | add | overflow | refuse | exceed | exchange | give | destroy => cases hg

end Frame

namespace Threads

variable {t u : Threads} {f : Frame} {e : Effect}

/-! ### The operations of all threads -/

/-- The operations of one thread, and those of the others. -/
theorem exists_frames_set {i : Nat} {stack : List Frame} (hi : t.calls[i]? = some stack) :
    ∃ rest : Multiset Frame, t.frames = ↑stack + rest ∧ ∀ stack' : List Frame,
      ((t.calls.set i stack').flatten : Multiset Frame) = ↑stack' + rest := by
  obtain ⟨hlt, rfl⟩ := List.getElem?_eq_some_iff.1 hi
  refine ⟨((t.calls.take i).flatten ++ (t.calls.drop (i + 1)).flatten : List Frame), ?_, ?_⟩
  · have hsplit : t.calls = t.calls.take i ++ t.calls[i] :: t.calls.drop (i + 1) := by simp
    rw [frames]
    conv_lhs => rw [hsplit]
    simp only [List.flatten_append, List.flatten_cons, ← Multiset.coe_add]
    abel
  · intro stack'
    rw [List.set_eq_take_append_cons_drop, if_pos hlt]
    simp only [List.flatten_append, List.flatten_cons, ← Multiset.coe_add]
    abel

/-- A thread begins an operation. -/
theorem frames_begin {i : Nat} {stack : List Frame} (hi : t.calls[i]? = some stack) (f : Frame) :
    ((t.calls.set i (f :: stack)).flatten : Multiset Frame) = f ::ₘ t.frames := by
  obtain ⟨rest, hframes, hset⟩ := exists_frames_set hi
  rw [hset, hframes, ← Multiset.cons_coe, Multiset.cons_add]

/-- An operation goes on, and the others are as they were. -/
theorem exists_frames_access {i : Nat} {below : List Frame} (hi : t.calls[i]? = some (f :: below)) :
    ∃ others : Multiset Frame, t.frames = f ::ₘ others ∧ ∀ fs : List Frame,
      ((t.calls.set i (fs ++ below)).flatten : Multiset Frame) = ↑fs + others := by
  obtain ⟨rest, hframes, hset⟩ := exists_frames_set hi
  refine ⟨↑below + rest, ?_, fun fs => ?_⟩
  · rw [hframes, ← Multiset.cons_coe, Multiset.cons_add]
  · rw [hset, ← Multiset.coe_add, add_assoc]

/-! ### Steps keep the balance -/

/-- Every unit is held, the teardown is where the counters say, and operations borrow handles that
were not dropped. -/
structure Balanced (t : Threads) : Prop where
  tally : Tally t.block t.handles.values t.frames t.log
  borrows : ∀ f ∈ t.frames, f.Borrows t.handles

theorem balanced_init (n : Nat) (layout : Layout) (resource : Option Nat) (action : ReleaseAction) :
    (init n layout resource action).Balanced := by
  have hframes : (init n layout resource action).frames = 0 := by simp [init, frames]
  refine ⟨?_, fun f hf => ?_⟩
  · rw [hframes]
    exact ⟨fun k => by cases k <;> rfl, rfl, rfl, rfl, List.nil_prefix⟩
  · rw [hframes] at hf
    exact absurd hf (Multiset.notMem_zero f)

/-- A thread begins an operation that borrows a handle. -/
theorem Balanced.begin (ht : t.Balanced) {i h : Nat} {stack : List Frame}
    (hi : t.calls[i]? = some stack) (hf : f.Borrows t.handles) (hborrowed : f.borrowed? = some h) :
    Balanced { t with calls := t.calls.set i (f :: stack) } := by
  refine ⟨?_, fun g hg => ?_⟩
  · rw [frames, frames_begin hi]
    exact (Tally.borrower_iff hborrowed).2 ht.tally
  · rw [frames, frames_begin hi] at hg
    rcases Multiset.mem_cons.1 hg with rfl | hg
    · exact hf
    · exact ht.borrows g hg

/-- A thread begins to drop a handle. -/
theorem Balanced.drop (ht : t.Balanced) {i h : Nat} {stack : List Frame} {k : Kind}
    (hi : t.calls[i]? = some stack) (hh : t.handles.get? h = some k)
    (hfree : ∀ f ∈ t.frames, f.borrowed? ≠ some h) :
    Balanced { t with
      handles := t.handles.erase h,
      calls := t.calls.set i (.give k :: stack) } := by
  have hvalues : (t.handles.values : Multiset Kind) = k ::ₘ (t.handles.erase h).values :=
    Multiset.coe_eq_coe.2 (Table.perm_values hh)
  refine ⟨?_, fun g hg => ?_⟩
  · rw [frames, frames_begin hi]
    exact (hvalues ▸ ht.tally).drop
  · rw [frames, frames_begin hi] at hg
    rcases Multiset.mem_cons.1 hg with rfl | hg
    · trivial
    · exact (ht.borrows g hg).erase (hfree g hg)

/-- An operation makes its next access. -/
theorem Balanced.access (ht : t.Balanced) {i : Nat} {below : List Frame}
    (hi : t.calls[i]? = some (f :: below)) (he : f.Access t.block e) :
    Balanced {
      block := e.block,
      handles := e.made.elim t.handles t.handles.insert,
      calls := t.calls.set i (e.frames ++ below),
      log := t.log ++ e.told } := by
  obtain ⟨others, hframes, hset⟩ := exists_frames_access hi
  have hf : f ∈ t.frames := hframes ▸ Multiset.mem_cons_self f others
  refine ⟨?_, fun g hg => ?_⟩
  · have htally := ht.tally
    have hsource : ∀ k h, f = .add k h → 0 < t.block.counts.get k := by
      rintro k h rfl
      exact htally.source_pos (ht.borrows _ hf)
    rw [hframes] at htally
    have haccess := htally.access he hsource
    rw [frames, hset]
    cases hmade : e.made with
    | none => simpa only [hmade, Option.elim_none] using haccess
    | some k =>
      have hvalues : ((t.handles.insert k).values : Multiset Kind) = k ::ₘ t.handles.values := by
        rw [Table.values_insert, ← Multiset.coe_add, add_comm]
        rfl
      simpa only [hmade, Option.elim_some, hvalues] using haccess
  · rw [frames, hset] at hg
    have hg' : g.Borrows t.handles := by
      rcases Multiset.mem_add.1 hg with hg | hg
      · exact he.borrows (ht.borrows f hf) hg
      · exact ht.borrows g (hframes ▸ Multiset.mem_cons_of_mem hg)
    cases e.made with
    | none => exact hg'
    | some k => exact hg'.insert k

/-- Every step of every thread keeps the balance. -/
theorem Balanced.step (ht : t.Balanced) (h : Step t u) : u.Balanced := by
  cases h with
  | add hi hready hh hk => exact ht.begin hi ⟨_, hh, hk⟩ rfl
  | lock hi hready hh => exact ht.begin hi hh rfl
  | drop hi hready hh hfree => exact ht.drop hi hh hfree
  | access hi he => exact ht.access hi he

theorem Balanced.leads (ht : t.Balanced) (h : Leads t u) : u.Balanced := by
  induction h with
  | refl => exact ht
  | tail _ hstep ih => exact ih.step hstep

theorem Reachable.balanced (ht : t.Reachable) : t.Balanced := by
  obtain ⟨n, layout, resource, action, hleads⟩ := ht
  exact (balanced_init n layout resource action).leads hleads

/-! ### The main result -/

/-- No strong unit is there: no handle holds one, and no operation gives one back. -/
structure Ownerless (t : Threads) : Prop where
  count : t.block.counts.strong = 0
  handles : .strong ∉ t.handles.values
  frames : .give .strong ∉ t.frames

theorem Balanced.ownerless (ht : t.Balanced) (hzero : t.block.counts.strong = 0) : t.Ownerless := by
  refine ⟨hzero, fun hmem => ?_, fun hmem => ?_⟩
  · have hpos := ht.tally.get_pos (.inl (Multiset.mem_coe.2 hmem))
    exact absurd hzero hpos.ne'
  · have hpos := ht.tally.get_pos (.inr hmem)
    exact absurd hzero hpos.ne'

/-- The release action is started when there is no strong unit left. -/
theorem Balanced.strong_eq_zero (ht : t.Balanced) (h : .dispose ∈ t.frames ∨ .started ∈ t.log) :
    t.block.counts.strong = 0 := by
  have hstarted := ht.tally.started
  have hone : 0 < t.frames.count .dispose + t.log.count .started := by
    rcases h with h | h
    · exact Nat.add_pos_left (Multiset.count_pos.2 h) _
    · exact Nat.add_pos_right _ (List.count_pos_iff.2 h)
  by_contra hne
  have hpos : 0 < t.block.counts.get .strong := Nat.pos_of_ne_zero hne
  rw [if_pos hpos] at hstarted
  omega

/-- No step makes a strong unit once there is none. -/
theorem Balanced.step_strong (ht : t.Balanced) (hzero : t.block.counts.strong = 0) (h : Step t u) :
    u.block.counts.strong = 0 := by
  cases h with
  | add | lock | drop => exact hzero
  | @access i f below e hi he =>
    obtain ⟨others, hframes, -⟩ := exists_frames_access hi
    have hf : f ∈ t.frames := hframes ▸ Multiset.mem_cons_self f others
    cases he with
    | @add k h | @overflow k h =>
      have hpos := ht.tally.source_pos (ht.borrows _ hf)
      cases k with
      | strong => exact absurd hzero hpos.ne'
      | weak => simpa using hzero
    -- the count that was read before is not there any more, so the exchange fails
    | exchange hpos hle hn => omega
    | @give k | @giveLast k =>
      cases k with
      | strong => simp [Block.removeUnit, Counts.modify, hzero]
      | weak => exact hzero
    | load | refuse | exceed | retry | dispose | release | destroy => exact hzero

theorem Balanced.leads_strong (ht : t.Balanced) (hzero : t.block.counts.strong = 0)
    (h : Leads t u) : u.block.counts.strong = 0 := by
  induction h with
  | refl => exact hzero
  | tail h hstep ih => exact (ht.leads h).step_strong ih hstep

/-- When the block was freed, no handle is left, and no operation is in progress. -/
theorem Balanced.freed (ht : t.Balanced) (h : .freed ∈ t.log) :
    t.handles.values = [] ∧ t.frames = 0 := by
  have htally := ht.tally
  have hcount : 0 < t.log.count .freed := List.count_pos_iff.2 h
  have hfreed := htally.freed
  have hzero : ¬ 0 < t.block.counts.get .weak := by
    split at hfreed <;> omega
  have hdestroy : t.frames.count .destroy = 0 := by
    split at hfreed <;> omega
  have hhandles : t.handles.values = [] := by
    refine List.eq_nil_iff_forall_not_mem.2 fun k hk => hzero ?_
    exact htally.weak_pos_of_held (.inl (Multiset.mem_coe.2 hk))
  have hnone := Table.get?_of_values_eq_nil hhandles
  refine ⟨hhandles, Multiset.eq_zero_of_forall_notMem fun f hf => ?_⟩
  cases f with
  | add k l =>
    obtain ⟨j, hj, -⟩ := ht.borrows _ hf
    cases (hnone l).symm.trans hj
  | load l | exchange l n => cases (hnone l).symm.trans (ht.borrows _ hf)
  | give k => exact hzero (htally.weak_pos_of_held (.inr hf))
  | dispose => exact hzero (htally.weak_pos_of_release (.inl hf))
  | release => exact hzero (htally.weak_pos_of_release (.inr hf))
  | destroy => exact Multiset.count_eq_zero.1 hdestroy hf

/-- Without a handle and without an operation in progress there is no further step. -/
theorem not_step (hhandles : t.handles.values = []) (hframes : t.frames = 0) : ¬ Step t u := by
  have hnone := Table.get?_of_values_eq_nil hhandles
  intro h
  cases h with
  | add hi hready hh | lock hi hready hh | drop hi hready hh => cases (hnone _).symm.trans hh
  | access hi he =>
    obtain ⟨others, hsome, -⟩ := exists_frames_access hi
    rw [hframes] at hsome
    exact Multiset.zero_ne_cons hsome

/-- When nothing holds a unit, the whole teardown is over. -/
theorem Balanced.complete (ht : t.Balanced) (hhandles : t.handles.values = [])
    (hframes : t.frames = 0) (hlost : t.block.lost = {}) : t.log = Phase.order := by
  obtain ⟨hcounted, hstarted, hreturned, hfreed, hordered⟩ := ht.tally
  have hstrong : t.block.counts.get .strong = 0 := by
    rw [hcounted, hhandles, hframes, hlost]
    rfl
  have hjointly : t.block.jointly t.frames = 0 := by simp [Block.jointly, hframes, hstrong]
  have hweak : t.block.counts.get .weak = 0 := by
    rw [hcounted, hjointly, hhandles, hframes, hlost]
    rfl
  simp only [hframes, hstrong, Multiset.count_zero, Nat.zero_add, Nat.lt_irrefl, if_false]
    at hstarted
  simp only [hframes, hweak, Multiset.count_zero, Nat.zero_add, Nat.lt_irrefl, if_false] at hfreed
  rcases Phase.cases_of_prefix hordered with hlog | hlog | hlog | hlog
  · simp [hlog] at hfreed
  · simp [hlog] at hfreed
  · simp [hlog] at hfreed
  · exact hlog

/-- A unit is lost only where a counter is above its limit. -/
theorem Step.lost (h : Step t u) :
    u.block.lost = t.block.lost ∨ ∃ k, unitLimit < t.block.counts.get k := by
  cases h with
  | add | lock | drop => exact .inl rfl
  | access hi he =>
    cases he with
    | add hle => exact .inl (Block.lost_addUnit_of_le hle)
    | overflow hlt => exact .inr ⟨_, hlt⟩
    | load | refuse | exceed | exchange | retry | give | giveLast | dispose | release | destroy =>
      exact .inl rfl

/-- What threads that share a block may rely on. -/
structure Safe (t : Threads) : Prop where
  /-- The release action is started once at most, and the block is freed once at most, after the
  release action has returned. -/
  ordered : t.log <+: Phase.order
  /-- The release action is started when no strong unit is left. -/
  released : .dispose ∈ t.frames ∨ .started ∈ t.log → t.Ownerless
  /-- No strong unit comes again, whatever the threads have read before. -/
  final : t.block.counts.strong = 0 → ∀ u, Leads t u → u.Ownerless
  /-- A unit that is given back is there, and so is the one that another is added for. -/
  backed : ∀ k h, .give k ∈ t.frames ∨ .add k h ∈ t.frames → 0 < t.block.counts.get k
  /-- Nothing is left to do with a block that was freed, and nothing can be begun. -/
  freed : .freed ∈ t.log → t.frames = 0 ∧ t.handles.values = [] ∧ ∀ u, ¬ Step t u
  /-- Once all handles are dropped and all operations are over, the block is torn down, unless an
  overflow lost a unit of it. -/
  complete : t.handles.values = [] → t.frames = 0 → t.block.lost = {} → t.log = Phase.order
  loses : ∀ u, Step t u → u.block.lost = t.block.lost ∨ ∃ k, unitLimit < t.block.counts.get k
  /-- A thread that is not disturbed ends its operation. -/
  alone : ∀ i f below out, t.calls[i]? = some (f :: below) → f.Alone t.block out →
    ∃ log, Leads t {
      block := out.1,
      handles := out.2.elim t.handles t.handles.insert,
      calls := t.calls.set i below,
      log }
  /-- To make a handle is then what it is in a single thread, -/
  adds : ∀ k h out, Frame.Alone t.block (.add k h) out ↔
    (t.block.addUnit k).2 = .ok () ∧ out = ((t.block.addUnit k).1, some k) ∨
      (t.block.addUnit k).2 = .error k.overflow ∧ out = ((t.block.addUnit k).1, none)
  /-- and so is to lock an observer. -/
  locks : ∀ h out, Frame.Alone t.block (.load h) out ↔
    (∃ b, t.block.promote = .ok (some b) ∧ out = (b, some .strong)) ∨
      (∀ b, t.block.promote ≠ .ok (some b)) ∧ out = (t.block, none)

/-- Threads that share a block may rely on it, however they interleave. -/
theorem safe_of_reachable (ht : t.Reachable) : t.Safe := by
  have hbalanced := ht.balanced
  constructor
  case ordered => exact hbalanced.tally.ordered
  case released =>
    intro hstarted
    exact hbalanced.ownerless (hbalanced.strong_eq_zero hstarted)
  case final =>
    intro hzero u hu
    exact (hbalanced.leads hu).ownerless (hbalanced.leads_strong hzero hu)
  case backed =>
    intro k h hk
    rcases hk with hk | hk
    · exact hbalanced.tally.get_pos (.inr hk)
    · exact hbalanced.tally.source_pos (hbalanced.borrows _ hk)
  case freed =>
    intro hfreed
    obtain ⟨hhandles, hframes⟩ := hbalanced.freed hfreed
    exact ⟨hframes, hhandles, fun u => not_step hhandles hframes⟩
  case complete => exact hbalanced.complete
  case loses => exact fun u => Step.lost
  case alone => exact fun i f below out => leads_alone
  case adds => exact fun k h out => Frame.alone_add_iff
  case locks => exact fun h out => Frame.alone_load_iff

/-- One thread locks an observer and has read a count of one, when another one drops the last owner
and starts the release action. -/
def lateLock : Threads where
  block := { counts := ⟨0, 2⟩, layout := ⟨32, 8⟩, resource := none, action := none }
  handles := ⟨[none, some .weak]⟩
  calls := [[.release], [.exchange 2 1]]
  log := [.started]

theorem reachable_lateLock : lateLock.Reachable := by
  refine ⟨2, ⟨32, 8⟩, none, .discard, ?_⟩
  -- the first thread makes an observer
  refine .head (.add (i := 0) (k := .weak) (h := 1) rfl (.inl rfl) rfl nofun) ?_
  refine .head (.access (i := 0) rfl (.add (by decide))) ?_
  -- the second thread begins to lock it
  refine .head (.lock (i := 1) (h := 2) rfl (.inl rfl) rfl) ?_
  refine .head (.access (i := 1) rfl .load) ?_
  -- the first thread drops the owner
  refine .head (.drop (i := 0) (h := 1) rfl (.inl rfl) rfl (by decide)) ?_
  refine .head (.access (i := 0) rfl (.giveLast rfl)) ?_
  refine .head (.access (i := 0) rfl .dispose) ?_
  exact .refl

theorem safe_lateLock : lateLock.Reachable ∧ .exchange 2 1 ∈ lateLock.frames ∧ lateLock.Safe :=
  ⟨reachable_lateLock, by decide, safe_of_reachable reachable_lateLock⟩

end Threads

end SharedOwnership
