import Mathlib.Algebra.Order.Group.Multiset
import SharedOwnership.Proofs.Interleaving

/-!
# Units and the teardown of a shared block

Every unit of a block is held by a handle, or by an operation that is going to give it back, or it is
lost. The owners hold one weak unit together until the release action has returned. The counters
tell how far the teardown has come, and every access keeps that so.

## Main definitions

* `Tally` — whether every unit is held, and the teardown is where the counters say.

## Main results

* `Tally.access` — every access keeps the tally.
-/

namespace SharedOwnership

theorem Phase.cases_of_prefix {log : List Phase} (h : log <+: order) :
    log = [] ∨ log = [.started] ∨ log = [.started, .returned] ∨ log = order := by
  have hle : log.length ≤ 3 := h.length_le
  have htake := List.prefix_iff_eq_take.1 h
  rcases hlength : log.length with _ | _ | _ | _ | n
  all_goals rw [hlength] at htake hle
  · exact .inl htake
  · exact .inr (.inl htake)
  · exact .inr (.inr (.inl htake))
  · exact .inr (.inr (.inr htake))
  · omega

/-- The weak units that the owners hold together: one until the release action has returned. -/
def Block.jointly (b : Block) (frames : Multiset Frame) : Nat :=
  (if 0 < b.counts.get .strong then 1 else 0) + frames.count .dispose + frames.count .release

/-- Every unit is held, and the teardown is where the counters say. -/
structure Tally (b : Block) (handles : Multiset Kind) (frames : Multiset Frame) (log : List Phase) :
    Prop where
  /-- A unit is held by a handle or by an operation that gives it back, if it is not lost. -/
  counted : ∀ k, b.counts.get k = handles.count k + frames.count (.give k) + b.lost.get k +
    if k = .weak then b.jointly frames else 0
  started : frames.count .dispose + log.count .started = if 0 < b.counts.get .strong then 0 else 1
  returned : frames.count .release + log.count .returned = log.count .started
  freed : frames.count .destroy + log.count .freed = if 0 < b.counts.get .weak then 0 else 1
  ordered : log <+: Phase.order

namespace Tally

variable {b b' : Block} {handles handles' : Multiset Kind} {frames frames' : Multiset Frame}
  {log : List Phase} {f : Frame} {k : Kind}

/-- What a handle or an operation holds is there. -/
theorem get_pos (ht : Tally b handles frames log) (hk : k ∈ handles ∨ .give k ∈ frames) :
    0 < b.counts.get k := by
  have hcounted := ht.counted k
  have hheld : 0 < handles.count k + frames.count (.give k) := by
    rcases hk with hk | hk
    · exact Nat.add_pos_left (Multiset.count_pos.2 hk) _
    · exact Nat.add_pos_right _ (Multiset.count_pos.2 hk)
  omega

/-- As long as there is a strong unit there is a weak one. -/
theorem weak_pos (ht : Tally b handles frames log) (hstrong : 0 < b.counts.get .strong) :
    0 < b.counts.get .weak := by
  have hcounted := ht.counted .weak
  simp only [Block.jointly, if_pos hstrong, if_true] at hcounted
  omega

/-- What a handle or an operation holds needs a weak unit. -/
theorem weak_pos_of_held (ht : Tally b handles frames log) (hk : k ∈ handles ∨ .give k ∈ frames) :
    0 < b.counts.get .weak := by
  cases k with
  | strong => exact ht.weak_pos (ht.get_pos hk)
  | weak => exact ht.get_pos hk

/-- The owners hold their weak unit until the release action has returned. -/
theorem weak_pos_of_release (ht : Tally b handles frames log)
    (hf : .dispose ∈ frames ∨ .release ∈ frames) : 0 < b.counts.get .weak := by
  have hcounted := ht.counted .weak
  have hheld : 0 < frames.count .dispose + frames.count .release := by
    rcases hf with hf | hf
    · exact Nat.add_pos_left (Multiset.count_pos.2 hf) _
    · exact Nat.add_pos_right _ (Multiset.count_pos.2 hf)
  simp only [Block.jointly, if_true] at hcounted
  omega

/-- What a unit is added for is there. -/
theorem source_pos {t : Table Kind} (ht : Tally b t.values frames log) {h : Nat}
    (hborrows : (Frame.add k h).Borrows t) : 0 < b.counts.get k := by
  obtain ⟨j, hj, hk⟩ := hborrows
  have hmem : j ∈ (t.values : Multiset Kind) := Multiset.mem_coe.2 (Table.mem_values.2 ⟨h, hj⟩)
  have hpos := ht.get_pos (.inl hmem)
  cases k with
  | strong => rwa [hk rfl] at hpos
  | weak => exact ht.weak_pos_of_held (.inl hmem)

/-- Units change hands, and the teardown stays where it is. -/
theorem congr (ht : Tally b handles frames log)
    (hpos : ∀ k, 0 < b'.counts.get k ↔ 0 < b.counts.get k)
    (hframes : ∀ g ∈ [Frame.dispose, .release, .destroy], frames'.count g = frames.count g)
    (hheld : ∀ k, b'.counts.get k + (handles.count k + frames.count (.give k) + b.lost.get k) =
      b.counts.get k + (handles'.count k + frames'.count (.give k) + b'.lost.get k)) :
    Tally b' handles' frames' log := by
  have hdispose : frames'.count .dispose = frames.count .dispose := hframes _ (by simp)
  have hrelease : frames'.count .release = frames.count .release := hframes _ (by simp)
  have hdestroy : frames'.count .destroy = frames.count .destroy := hframes _ (by simp)
  have hjointly : b'.jointly frames' = b.jointly frames := by
    simp only [Block.jointly, hpos, hdispose, hrelease]
  refine ⟨fun k => ?_, ?_, ?_, ?_, ht.ordered⟩
  · have hcounted := ht.counted k
    have hk := hheld k
    rw [hjointly]
    omega
  · simp only [hdispose, hpos, ht.started]
  · rw [hrelease, ht.returned]
  · simp only [hdestroy, hpos, ht.freed]

/-- What an operation holds that borrows a handle is the handle's. -/
theorem count_borrower {h : Nat} (hborrowed : f.borrowed? = some h) {g : Frame}
    (hg : g.borrowed? = none) : (f ::ₘ frames).count g = frames.count g := by
  refine Multiset.count_cons_of_ne ?_ _
  rintro rfl
  cases hborrowed.symm.trans hg

/-- An operation that borrows a handle begins or ends. -/
theorem borrower_iff {h : Nat} (hborrowed : f.borrowed? = some h) :
    Tally b handles (f ::ₘ frames) log ↔ Tally b handles frames log := by
  have hcount : ∀ g ∈ [Frame.dispose, .release, .destroy],
      (f ::ₘ frames).count g = frames.count g := by
    intro g hg
    simp only [List.mem_cons, List.not_mem_nil, or_false] at hg
    rcases hg with rfl | rfl | rfl <;> exact count_borrower hborrowed rfl
  constructor
  · refine fun ht => ht.congr (fun _ => Iff.rfl) (fun g hg => (hcount g hg).symm) fun k => ?_
    rw [count_borrower hborrowed rfl]
  · refine fun ht => ht.congr (fun _ => Iff.rfl) hcount fun k => ?_
    rw [count_borrower hborrowed rfl]

/-- The unit of a handle that is dropped goes to the operation that gives it back. -/
theorem drop (ht : Tally b (k ::ₘ handles) frames log) :
    Tally b handles (.give k ::ₘ frames) log := by
  refine ht.congr (fun _ => Iff.rfl) (fun g hg => ?_) fun j => ?_
  · refine Multiset.count_cons_of_ne ?_ _
    rintro rfl
    simp at hg
  · simp only [Multiset.count_cons, Frame.give.injEq]
    omega

/-- The last strong unit is given back; the owners still hold their weak unit. -/
theorem giveLast_strong (ht : Tally b handles (.give .strong ::ₘ frames) log)
    (hone : b.counts.get .strong = 1) :
    Tally (b.removeUnit .strong) handles (.dispose ::ₘ frames) log := by
  obtain ⟨hcounted, hstarted, hreturned, hfreed, hordered⟩ := ht
  have hstrong := hcounted .strong
  have hweak := hcounted .weak
  simp only [Block.jointly, Multiset.count_cons, hone, Nat.one_pos, Frame.give.injEq, reduceCtorEq,
    if_true, if_false] at hstrong hweak hstarted hreturned hfreed
  refine ⟨fun k => ?_, ?_, ?_, ?_, hordered⟩
  · cases k
    · simp [Block.removeUnit]
      omega
    · simp [Block.removeUnit, Block.jointly, Counts.get_modify, hone]
      omega
  · simp [Block.removeUnit, hone]
    omega
  · simp
    omega
  · simp [Block.removeUnit, Counts.get_modify]
    omega

/-- The last weak unit is given back: there is no owner then, and the release action has
returned. -/
theorem giveLast_weak (ht : Tally b handles (.give .weak ::ₘ frames) log)
    (hone : b.counts.get .weak = 1) :
    Tally (b.removeUnit .weak) handles (.destroy ::ₘ frames) log := by
  obtain ⟨hcounted, hstarted, hreturned, hfreed, hordered⟩ := ht
  have hstrong := hcounted .strong
  have hweak := hcounted .weak
  simp only [Block.jointly, Multiset.count_cons, hone, Nat.one_pos, Frame.give.injEq, reduceCtorEq,
    if_true, if_false] at hstrong hweak hstarted hreturned hfreed
  refine ⟨fun k => ?_, ?_, ?_, ?_, hordered⟩
  · cases k
    · simp [Block.removeUnit, Counts.get_modify]
      omega
    · simp only [Block.removeUnit, Block.jointly, Counts.get_modify, Multiset.count_cons, hone,
        reduceCtorEq, if_true, if_false]
      omega
  · simp [Block.removeUnit, Counts.get_modify]
    omega
  · simp
    omega
  · simp [Block.removeUnit, hone]
    omega

/-- The release action is started, for the first time. -/
theorem dispose (ht : Tally b handles (.dispose ::ₘ frames) log) :
    Tally { b with action := none } handles (.release ::ₘ frames) (log ++ [.started]) := by
  obtain ⟨hcounted, hstarted, hreturned, hfreed, hordered⟩ := ht
  simp only [Multiset.count_cons, reduceCtorEq, if_true, if_false] at hstarted hreturned hfreed
  -- the release action waits, so it was not started before
  have hcount : log.count .started = 0 := by
    split at hstarted <;> omega
  obtain rfl : log = [] := by
    rcases Phase.cases_of_prefix hordered with rfl | rfl | rfl | rfl
    · rfl
    all_goals cases hcount
  refine ⟨fun k => ?_, ?_, ?_, ?_, by decide⟩
  · have hk := hcounted k
    cases k <;>
      simp only [Block.jointly, Multiset.count_cons, reduceCtorEq, if_true, if_false] at hk ⊢ <;>
      omega
  · simpa [Multiset.count_cons] using hstarted
  · simpa [Multiset.count_cons] using hreturned
  · simpa [Multiset.count_cons] using hfreed

/-- The release action returns, and the weak unit of the owners is to be given back. -/
theorem release (ht : Tally b handles (.release ::ₘ frames) log) :
    Tally b handles (.give .weak ::ₘ frames) (log ++ [.returned]) := by
  obtain ⟨hcounted, hstarted, hreturned, hfreed, hordered⟩ := ht
  simp only [Multiset.count_cons, reduceCtorEq, if_true, if_false] at hstarted hreturned hfreed
  obtain rfl : log = [.started] := by
    rcases Phase.cases_of_prefix hordered with rfl | rfl | rfl | rfl
    · simp at hreturned
    · rfl
    all_goals simp [Phase.order] at hreturned
  refine ⟨fun k => ?_, ?_, ?_, ?_, by decide⟩
  · have hk := hcounted k
    cases k <;>
      simp only [Block.jointly, Multiset.count_cons, Frame.give.injEq, reduceCtorEq, if_true,
        if_false] at hk ⊢ <;>
      omega
  · simpa [Multiset.count_cons] using hstarted
  · simpa [Multiset.count_cons] using hreturned
  · simpa [Multiset.count_cons] using hfreed

/-- The block is freed, after everything else. -/
theorem destroy (ht : Tally b handles (.destroy ::ₘ frames) log) :
    Tally b handles frames (log ++ [.freed]) := by
  obtain ⟨hcounted, hstarted, hreturned, hfreed, hordered⟩ := ht
  have hweak := hcounted .weak
  simp only [Block.jointly, Multiset.count_cons, reduceCtorEq, if_true, if_false]
    at hweak hstarted hreturned hfreed
  -- without a weak unit there is no owner, and the release action has returned
  have hzero : ¬ 0 < b.counts.get .weak := by
    split at hfreed <;> omega
  have hstrong : ¬ 0 < b.counts.get .strong := by
    split at hweak <;> omega
  rw [if_neg hstrong] at hstarted hweak
  rw [if_neg hzero] at hfreed
  obtain rfl : log = [.started, .returned] := by
    rcases Phase.cases_of_prefix hordered with rfl | rfl | rfl | rfl
    · simp at hstarted
      omega
    · simp at hreturned
      omega
    · rfl
    · simp [Phase.order] at hfreed
  refine ⟨fun k => ?_, ?_, ?_, ?_, by decide⟩
  · have hk := hcounted k
    simpa [Block.jointly, Multiset.count_cons] using hk
  · rw [if_neg hstrong]
    simpa using hstarted
  · simpa using hreturned
  · rw [if_neg hzero]
    simpa using hfreed

/-- A unit is added for a handle. -/
theorem gain (ht : Tally b handles frames log) (hpos : 0 < b.counts.get k)
    (hcounts : b'.counts = b.counts.modify k (· + 1)) (hlost : b'.lost = b.lost) :
    Tally b' (k ::ₘ handles) frames log := by
  refine ht.congr (fun j => ?_) (fun _ _ => rfl) fun j => ?_
  · rw [hcounts]
    exact Counts.pos_modify (by simp [hpos]) j
  · rw [hcounts, hlost, Counts.get_modify, Multiset.count_cons]
    split <;> omega

/-- A unit is added and lost. -/
theorem lose (ht : Tally b handles frames log) (hpos : 0 < b.counts.get k)
    (hcounts : b'.counts = b.counts.modify k (· + 1)) (hlost : b'.lost = b.lost.modify k (· + 1)) :
    Tally b' handles frames log := by
  refine ht.congr (fun j => ?_) (fun _ _ => rfl) fun j => ?_
  · rw [hcounts]
    exact Counts.pos_modify (by simp [hpos]) j
  · rw [hcounts, hlost, Counts.get_modify, Counts.get_modify]
    split <;> omega

/-- A unit is given back that is not the last one. -/
theorem give (ht : Tally b handles (.give k ::ₘ frames) log) (hmore : b.counts.get k ≠ 1) :
    Tally (b.removeUnit k) handles frames log := by
  have hpos : 0 < b.counts.get k := ht.get_pos (.inr (Multiset.mem_cons_self ..))
  refine ht.congr (fun j => ?_) (fun g hg => ?_) fun j => ?_
  · exact Counts.pos_modify (by omega) j
  · refine (Multiset.count_cons_of_ne ?_ _).symm
    rintro rfl
    simp at hg
  · simp only [Block.removeUnit, Counts.get_modify, Multiset.count_cons, Frame.give.injEq]
    split
    · next hj =>
      subst hj
      omega
    · omega

/-- The next access of an operation. -/
theorem access {e : Effect} (ht : Tally b handles (f ::ₘ frames) log) (he : f.Access b e)
    (hsource : ∀ k h, f = .add k h → 0 < b.counts.get k) :
    Tally e.block (e.made.elim handles (· ::ₘ handles)) (↑e.frames + frames) (log ++ e.told) := by
  cases he
  all_goals
    simp only [Option.elim_none, Option.elim_some, Multiset.coe_nil, Multiset.coe_singleton,
      Multiset.singleton_add, zero_add, List.append_nil]
  case add k h hle =>
    have hrest := (borrower_iff rfl).1 ht
    exact hrest.gain (hsource k h rfl) (by simp) (Block.lost_addUnit_of_le hle)
  case overflow k h hlt =>
    have hrest := (borrower_iff rfl).1 ht
    exact hrest.lose (hsource k h rfl) (by simp) (Block.lost_addUnit_of_lt hlt)
  case load | retry => exact (borrower_iff rfl).2 ((borrower_iff rfl).1 ht)
  case refuse | exceed => exact (borrower_iff rfl).1 ht
  case exchange h n hpos hle hn =>
    have hrest := (borrower_iff rfl).1 ht
    have hstrong : 0 < b.counts.get .strong := by
      rw [← hn] at hpos
      exact hpos
    exact hrest.gain hstrong (by rw [← hn]; rfl) rfl
  case give k hmore => exact ht.give hmore
  case giveLast k hone =>
    cases k with
    | strong => exact ht.giveLast_strong hone
    | weak => exact ht.giveLast_weak hone
  case dispose => exact ht.dispose
  case release => exact ht.release
  case destroy => exact ht.destroy

end Tally

end SharedOwnership
