import Mathlib.Data.List.Count
import SharedOwnership.Proofs.Interleaving

/-!
# A promotion is one conditional increment

A lock reads the strong counter of a block and then tries to exchange what it has read for one more.
Other threads may add units and give units back before each of its accesses, and an exchange may
fail for no reason, so what it has read may be old, or be true again after it was not. Whatever
happens on the way, in the end the lock has done at one moment what the same lock does in a single
thread: it has added a unit to a counter that was neither zero nor above its limit, or it has added
none because at one moment the counter was.

## Main definitions

* `Moment` — what happens to the counter meanwhile.
* `Promotion`, `Promotion.Step` — a lock in progress, and what may happen next.
* `Promotion.IsAccess` — whether a lock does what an operation of threads does.
* `Promotion.Atomic` — what a lock comes to.

## Main results

* `Promotion.access_of_leads` — its accesses are those of threads that share a block.
* `Promotion.step_of_access` — and what such threads do may happen meanwhile.
* `Promotion.atomic_of_leads` — every lock comes to that.
-/

namespace SharedOwnership

/-- What happens to the strong counter while a lock is in progress. -/
inductive Moment
  /-- Another thread takes the counter from `before` to `after`. -/
  | foreign (before after : Nat)
  /-- The lock reads `n`. -/
  | read (n : Nat)
  /-- The lock exchanges `n` for `n + 1`. -/
  | exchanged (n : Nat)
  /-- The exchange of `expected` fails and reads `found`. -/
  | missed (expected found : Nat)
  deriving DecidableEq, Repr

namespace Moment

/-- The counter just before. -/
def count : Moment → Nat
  | .foreign n _ | .read n | .exchanged n | .missed _ n => n

/-- What the lock has read, if it was that which happened. -/
def read? : Moment → Option Nat
  | .read n | .missed _ n => some n
  | .foreign _ _ | .exchanged _ => none

def isExchange : Moment → Bool
  | .exchanged _ => true
  | _ => false

def isFailure : Moment → Bool
  | .missed _ _ => true
  | _ => false

/-- Whether an exchange failed for no reason. -/
def isSpurious : Moment → Bool
  | .missed expected found => expected = found
  | _ => false

def isForeign : Moment → Bool
  | .foreign _ _ => true
  | _ => false

/-- Whether another thread changed the counter. -/
def isChange : Moment → Bool
  | .foreign before after => before ≠ after
  | _ => false

/-- Whether zero is not left, if it is another thread that could leave it. -/
def KeepsZero (e : Moment) : Prop := ∀ after, e = .foreign 0 after → after = 0

end Moment

/-- Where a lock is. -/
inductive Promotion.Point
  /-- Before the first read. -/
  | reading
  /-- It is going to exchange `n`. -/
  | holding (n : Nat)
  /-- It got a unit, or it did not, or it panicked. -/
  | ended (r : Except Panic Bool)

/-- A lock in progress. -/
structure Promotion where
  block : Block
  point : Promotion.Point := .reading
  /-- What has happened so far, in order. -/
  history : List Moment := []

namespace Promotion

/-- Where a lock is when it has read `n`. -/
def judge (n : Nat) : Point :=
  if n = 0 then .ended (.ok false)
  else if n ≤ unitLimit then .holding n
  else .ended (.error .strongOverflow)

/-- The strong counter. -/
def count (t : Promotion) : Nat := t.block.counts.strong

/-- What the lock has read so far. -/
def reads (t : Promotion) : List Nat := t.history.filterMap Moment.read?

/-- The lock after its exchange. -/
def exchanged (t : Promotion) : Promotion where
  block := { t.block with counts := t.block.counts.modify .strong (· + 1) }
  point := .ended (.ok true)
  history := t.history ++ [.exchanged t.count]

/-- The next access of a lock. -/
inductive Own (t : Promotion) : Promotion → Prop
  | read (hpoint : t.point = .reading) : Own t
      { t with point := judge t.count, history := t.history ++ [.read t.count] }
  | exchange (hpoint : t.point = .holding t.count) : Own t t.exchanged
  /-- The counter is another one, or the exchange fails for no reason. -/
  | miss {n : Nat} (hpoint : t.point = .holding n) : Own t
      { t with point := judge t.count, history := t.history ++ [.missed n t.count] }

/-- What may happen while a lock is in progress: its next access, or another thread adds a unit or
gives one back, with anything else that it does to the block. -/
inductive Step (t : Promotion) : Promotion → Prop
  | own {u : Promotion} (h : Own t u) : Step t u
  | foreign (b : Block) (hopen : ∀ r, t.point ≠ .ended r) (hup : b.counts.strong ≤ t.count + 1)
      (hdown : t.count ≤ b.counts.strong + 1) :
    Step t { t with block := b, history := t.history ++ [.foreign t.count b.counts.strong] }

/-- A lock that is at `t` may come to `u`. -/
def Leads (t u : Promotion) : Prop := Relation.ReflTransGen Step t u

variable {t u : Promotion} {b : Block} {n : Nat} {r : Except Panic Bool}

theorem judge_ne_reading (n : Nat) : judge n ≠ .reading := by
  rw [judge]
  split
  · nofun
  · split <;> nofun

theorem judge_eq_holding {m : Nat} (h : judge n = .holding m) :
    m = n ∧ 0 < n ∧ n ≤ unitLimit := by
  rw [judge] at h
  split at h
  · cases h
  · next hne =>
    split at h
    · next hle =>
      cases h
      exact ⟨rfl, Nat.pos_of_ne_zero hne, hle⟩
    · cases h

theorem judge_eq_ended (h : judge n = .ended r) :
    r = .ok false ∧ n = 0 ∨ r = .error .strongOverflow ∧ unitLimit < n := by
  rw [judge] at h
  split at h
  · next hzero =>
    cases h
    exact .inl ⟨rfl, hzero⟩
  · split at h
    · cases h
    · next hlt =>
      cases h
      exact .inr ⟨rfl, Nat.not_le.1 hlt⟩

/-! ### The accesses of threads -/

/-- What a lock of the observer labelled `h` is doing, among the operations of threads. -/
def Point.frame? (h : Nat) : Point → Option Frame
  | .reading => some (.load h)
  | .holding n => some (.exchange h n)
  | .ended _ => none

/-- What a lock of the observer labelled `h` does from `t` to `u` is an access of an operation of
threads that share a block, which makes an owner just if the lock gets its unit. An operation that
has read a number which ends the lock makes no further change. -/
def IsAccess (h : Nat) (t u : Promotion) : Prop :=
  ∃ f e, t.point.frame? h = some f ∧ f.Access t.block e ∧ e.block = u.block ∧
    (e.made = some .strong ↔ u.point = .ended (.ok true)) ∧
    (u.point ≠ .ended (.ok true) → e.frames = [.exchange h u.count]) ∧
    ∀ r, u.point = .ended r → r ≠ .ok true →
      (Frame.exchange h u.count).Access u.block { block := u.block }

/-- Every access of a lock is one of an operation of threads. -/
theorem access_of_own (h : Nat) (hholding : ∀ n, t.point = .holding n → 0 < n ∧ n ≤ unitLimit)
    (hown : Own t u) : IsAccess h t u := by
  have hjudge : ∀ n, judge n ≠ .ended (.ok true) := by
    intro n hn
    rcases judge_eq_ended hn with ⟨hr, -⟩ | ⟨hr, -⟩ <;> cases hr
  have hend : ∀ r, judge t.count = .ended r → r ≠ .ok true →
      (Frame.exchange h t.count).Access t.block { block := t.block } := by
    intro r hr _
    rcases judge_eq_ended hr with ⟨-, hzero⟩ | ⟨-, hlt⟩
    · rw [hzero]
      exact .refuse
    · exact .exceed hlt
  cases hown with
  | read hpoint =>
    refine ⟨.load h, _, by rw [hpoint]; rfl, .load, rfl, ?_, fun _ => rfl, hend⟩
    simp [hjudge]
  | exchange hpoint =>
    obtain ⟨hpos, hle⟩ := hholding _ hpoint
    refine ⟨.exchange h t.count, _, by rw [hpoint]; rfl, .exchange hpos hle rfl, rfl,
      by simp [exchanged], by simp [exchanged], ?_⟩
    rintro r ⟨⟩ hr
    exact absurd rfl hr
  | @miss n hpoint =>
    obtain ⟨hpos, hle⟩ := hholding n hpoint
    refine ⟨.exchange h n, _, by rw [hpoint]; rfl, .retry hpos hle, rfl, ?_, fun _ => rfl, hend⟩
    simp [hjudge]

/-- Whatever access another thread makes, it may make it while a lock is in progress. -/
theorem step_of_access {f : Frame} {e : Effect} (hopen : ∀ r, t.point ≠ .ended r)
    (he : f.Access t.block e) : Step t { t with
      block := e.block, history := t.history ++ [.foreign t.count e.block.counts.strong] } := by
  have hcounts : e.block.counts.strong ≤ t.block.counts.strong + 1 ∧
      t.block.counts.strong ≤ e.block.counts.strong + 1 := by
    cases he with
    | @add k | @overflow k =>
      rw [Block.counts_addUnit]
      cases k <;> simp only [Counts.modify] <;> omega
    | @give k | @giveLast k => cases k <;> simp only [Block.removeUnit, Counts.modify] <;> omega
    | exchange hpos hle hn =>
      simp only [Counts.modify]
      omega
    | load | refuse | exceed | retry | dispose | release | destroy =>
      exact ⟨Nat.le_succ _, Nat.le_succ _⟩
  exact .foreign e.block hopen hcounts.1 hcounts.2

/-! ### While a lock is in progress -/

/-- One if a lock is going to exchange another number than the counter, zero otherwise. -/
def Point.stale (point : Point) (count : Nat) : Nat :=
  match point with
  | .holding n => if n = count then 0 else 1
  | _ => 0

/-- What holds of a lock that was begun on the block `b` and has got no unit. -/
structure Unpromoted (b : Block) (t : Promotion) : Prop where
  /-- It has written nothing. -/
  exchanges : ∀ e ∈ t.history, e.isExchange = false
  holding : ∀ n, t.point = .holding n → 0 < n ∧ n ≤ unitLimit
  /-- It has ended because of what it has read. -/
  ended : ∀ r, t.point = .ended r → ∃ n ∈ t.reads, judge n = .ended r
  /-- Every failure had its own reason, and there is one left for an exchange that has to fail. -/
  failures : t.history.countP Moment.isFailure + t.point.stale t.count ≤
    t.history.countP Moment.isSpurious + t.history.countP Moment.isChange
  /-- Where zero is not left, a counter that is not zero never was. -/
  steady : (∀ e ∈ t.history, e.KeepsZero) → 0 < t.count → ∀ e ∈ t.history, 0 < e.count
  /-- Without other threads the block is as it was, and so it was read. -/
  alone : (∀ e ∈ t.history, e.isForeign = false) →
    t.block = b ∧ ∀ n ∈ t.reads, n = b.counts.strong

theorem unpromoted_start (b : Block) : Unpromoted b { block := b } :=
  ⟨nofun, nofun, nofun, Nat.le_refl _, fun _ _ => nofun, fun _ => ⟨rfl, nofun⟩⟩

theorem reads_append (history : List Moment) (e : Moment) :
    (history ++ [e]).filterMap Moment.read? = history.filterMap Moment.read? ++ e.read?.toList := by
  rw [List.filterMap_append]
  cases e <;> rfl

theorem Point.stale_le_one (point : Point) (count : Nat) : point.stale count ≤ 1 := by
  cases point with
  | holding n =>
    rw [stale]
    split <;> omega
  | reading | ended => exact Nat.zero_le _

/-- A number that was read just now is what the counter is. -/
theorem stale_judge (n : Nat) : (judge n).stale n = 0 := by
  cases h : judge n with
  | holding m => exact if_pos (judge_eq_holding h).1
  | reading | ended => rfl

/-- The lock reads the counter, at first or because an exchange fails. -/
theorem Unpromoted.look (h : Unpromoted b t) {e : Moment} (hread : e.read? = some t.count)
    (hfailure : e.isFailure.toNat ≤ e.isSpurious.toNat + t.point.stale t.count) :
    Unpromoted b { t with point := judge t.count, history := t.history ++ [e] } := by
  obtain ⟨hexchange, hforeign, hchange, hcount⟩ : e.isExchange = false ∧
      e.isForeign = false ∧ e.isChange = false ∧ e.count = t.count := by
    cases e <;> simp_all [Moment.read?, Moment.isExchange, Moment.isForeign, Moment.isChange,
      Moment.count]
  refine ⟨List.forall_mem_append.2 ⟨h.exchanges, by simpa using hexchange⟩, fun n hn => ?_,
    fun r hr => ⟨t.count, ?_, hr⟩, ?_, fun hkeeps hpos => ?_, fun hall => ?_⟩
  · obtain ⟨rfl, hpos, hle⟩ := judge_eq_holding hn
    exact ⟨hpos, hle⟩
  · simp [reads, hread]
  · have hfailures := h.failures
    change _ + (judge t.count).stale t.count ≤ _
    rw [stale_judge]
    simp only [List.countP_append, List.countP_singleton, hchange]
    cases hf : e.isFailure <;> cases hs : e.isSpurious <;>
      simp only [hf, hs, Bool.toNat_true, Bool.toNat_false] at hfailure ⊢ <;>
      simp <;> omega
  · rw [List.forall_mem_append] at hkeeps ⊢
    refine ⟨h.steady hkeeps.1 hpos, ?_⟩
    rw [List.forall_mem_singleton, hcount]
    exact hpos
  · obtain ⟨hblock, hreads⟩ := h.alone (List.forall_mem_append.1 hall).1
    refine ⟨hblock, fun n hn => ?_⟩
    rw [reads, reads_append, hread, List.mem_append, Option.toList_some, List.mem_singleton] at hn
    rcases hn with hn | rfl
    · exact hreads n hn
    · rw [count, hblock]

/-- Another thread changes the block. -/
theorem Unpromoted.foreign (h : Unpromoted b t) (b' : Block) :
    Unpromoted b { t with
      block := b', history := t.history ++ [.foreign t.count b'.counts.strong] } := by
  have hreads : reads { t with
      block := b', history := t.history ++ [.foreign t.count b'.counts.strong] } = t.reads := by
    rw [reads, reads_append]
    exact List.append_nil _
  refine ⟨List.forall_mem_append.2 ⟨h.exchanges, by simp [Moment.isExchange]⟩, h.holding,
    fun r hr => hreads ▸ h.ended r hr, ?_, fun hkeeps hpos => ?_, fun hall => ?_⟩
  · have hfailures := h.failures
    simp only [List.countP_append, List.countP_singleton, Moment.isFailure, Moment.isSpurious,
      Moment.isChange]
    change _ + 0 + t.point.stale b'.counts.strong ≤ _
    by_cases hsame : t.count = b'.counts.strong
    · rw [hsame] at hfailures
      simpa [hsame] using hfailures
    · have hstale := t.point.stale_le_one b'.counts.strong
      simp only [hsame, ne_eq, not_false_eq_true, decide_true, if_true]
      omega
  · rw [List.forall_mem_append, List.forall_mem_singleton] at hkeeps ⊢
    have hpos' : 0 < t.count := by
      refine Nat.pos_of_ne_zero fun hzero => hpos.ne' (hkeeps.2 _ ?_)
      rw [hzero]
      rfl
    exact ⟨h.steady hkeeps.1 hpos', hpos'⟩
  · have hnot := (List.forall_mem_append.1 hall).2 _ (List.mem_singleton_self _)
    cases hnot

/-! ### The main result -/

/-- What a lock that was begun on the block `b` has come to when it is at `t`, ended with `r`. -/
structure Atomic (b : Block) (t : Promotion) (r : Except Panic Bool) : Prop where
  /-- It got its unit in a single step, its last one, from a counter that was neither zero nor above
  its limit. -/
  promoted : r = .ok true → ∃ u, Leads { block := b } u ∧ 0 < u.count ∧ u.count ≤ unitLimit ∧
    (∀ e ∈ u.history, e.isExchange = false) ∧ Own u t ∧ t = u.exchanged
  /-- It got none because the counter was zero when it was read, and it has written nothing. -/
  refused : r = .ok false → 0 ∈ t.reads ∧ ∀ e ∈ t.history, e.isExchange = false
  /-- It panicked because the counter was above its limit when it was read, and it has written
  nothing. -/
  panicked : ∀ p, r = .error p → p = .strongOverflow ∧ (∃ n ∈ t.reads, unitLimit < n) ∧
    ∀ e ∈ t.history, e.isExchange = false
  /-- Its exchanges failed for no reason, or because of other threads. -/
  failures : t.history.countP Moment.isFailure ≤
    t.history.countP Moment.isSpurious + t.history.countP Moment.isChange
  /-- Where zero is not left, a lock that got its unit found the counter above zero all the time. -/
  steady : (∀ e ∈ t.history, e.KeepsZero) → r = .ok true → ∀ e ∈ t.history, 0 < e.count
  /-- Without other threads it comes to what a single thread comes to. -/
  alone : (∀ e ∈ t.history, e.isForeign = false) →
    b.promote = r.map (fun got => if got then some t.block else none) ∧
      (r ≠ .ok true → t.block = b)
  /-- Each of its accesses was one of threads that share the block, -/
  accesses : ∀ u v, Leads { block := b } u → Own u v → ∀ h, IsAccess h u v
  /-- and what such threads do to the block is something that may happen meanwhile. -/
  others : ∀ (u : Promotion) (f : Frame) (e : Effect), (∀ r, u.point ≠ .ended r) →
    f.Access u.block e → Step u { u with
      block := e.block, history := u.history ++ [.foreign u.count e.block.counts.strong] }

/-- A lock has got no unit, or the last thing that happened was that it got one. -/
theorem unpromoted_or_exchanged (h : Leads { block := b } t) : t.Unpromoted b ∨
    ∃ u, Leads { block := b } u ∧ u.Unpromoted b ∧ u.point = .holding u.count ∧
      t = u.exchanged := by
  induction h with
  | refl => exact .inl (unpromoted_start b)
  | @tail v w hv hstep ih =>
    rcases ih with hopen | ⟨u, -, -, -, rfl⟩
    · cases hstep with
      | foreign b' => exact .inl (hopen.foreign b')
      | own h =>
        cases h with
        | read hpoint => exact .inl (hopen.look rfl (Nat.zero_le _))
        | exchange hpoint => exact .inr ⟨v, hv, hopen, hpoint, rfl⟩
        | @miss n hpoint =>
          refine .inl (hopen.look rfl ?_)
          simp only [Moment.isFailure, Moment.isSpurious, Point.stale, hpoint]
          split <;> simp [*]
    · -- nothing happens to a lock that has ended
      cases hstep with
      | foreign b' hopen => exact absurd rfl (hopen (.ok true))
      | own h =>
        cases h with
        | read hpoint | exchange hpoint | miss hpoint => cases hpoint

/-- Whatever has happened, the next access of a lock is one of an operation of threads. -/
theorem access_of_leads (hu : Leads { block := b } u) (hown : Own u t) (h : Nat) :
    IsAccess h u t := by
  refine access_of_own h ?_ hown
  intro n hpoint
  rcases unpromoted_or_exchanged hu with hopen | ⟨v, -, -, -, rfl⟩
  · exact hopen.holding n hpoint
  · cases hpoint

/-- A lock that has got no unit has ended because of what it has read. -/
theorem Unpromoted.atomic (h : t.Unpromoted b) (hend : t.point = .ended r) : t.Atomic b r := by
  obtain ⟨n, hn, hjudge⟩ := h.ended r hend
  have hread : r = .ok false ∧ n = 0 ∨ r = .error .strongOverflow ∧ unitLimit < n :=
    judge_eq_ended hjudge
  have hnot : r ≠ .ok true := by
    rcases hread with ⟨rfl, -⟩ | ⟨rfl, -⟩ <;> nofun
  constructor
  case promoted => exact fun hok => absurd hok hnot
  case refused =>
    rintro rfl
    obtain ⟨-, rfl⟩ := hread.resolve_right nofun
    exact ⟨hn, h.exchanges⟩
  case panicked =>
    rintro p rfl
    obtain ⟨hp, hlt⟩ := hread.resolve_left nofun
    exact ⟨Except.error.inj hp, ⟨n, hn, hlt⟩, h.exchanges⟩
  case failures => exact (Nat.le_add_right _ _).trans h.failures
  case steady => exact fun _ hok => absurd hok hnot
  case alone =>
    intro hall
    obtain ⟨hblock, hreads⟩ := h.alone hall
    obtain rfl : n = b.counts.strong := hreads n hn
    refine ⟨?_, fun _ => hblock⟩
    rcases hread with ⟨rfl, hzero⟩ | ⟨rfl, hlt⟩
    · exact Block.promote_eq_none.2 hzero
    · rw [Block.promote, if_neg (Nat.ne_of_gt (Nat.zero_lt_of_lt hlt)), if_neg (Nat.not_le.2 hlt)]
      rfl
  case accesses => exact fun u v => access_of_leads
  case others => exact fun u f e => step_of_access

/-- The exchange is what a lock that gets its unit has done. -/
theorem Unpromoted.atomic_exchanged (hu : Leads { block := b } u) (h : u.Unpromoted b)
    (hpoint : u.point = .holding u.count) : u.exchanged.Atomic b (.ok true) := by
  obtain ⟨hpos, hle⟩ := h.holding _ hpoint
  constructor
  case promoted => exact fun _ => ⟨u, hu, hpos, hle, h.exchanges, .exchange hpoint, rfl⟩
  case refused => nofun
  case panicked => nofun
  case failures =>
    have hfailures := h.failures
    simp only [exchanged, List.countP_append, List.countP_singleton, Moment.isFailure,
      Moment.isSpurious, Moment.isChange]
    exact (Nat.le_add_right _ _).trans hfailures
  case steady =>
    intro hkeeps _
    simp only [exchanged, List.forall_mem_append, List.forall_mem_singleton] at hkeeps ⊢
    exact ⟨h.steady hkeeps.1 hpos, hpos⟩
  case alone =>
    intro hall
    simp only [exchanged, List.forall_mem_append] at hall
    obtain ⟨hblock, -⟩ := h.alone hall.1
    refine ⟨?_, fun hne => absurd rfl hne⟩
    rw [count, hblock] at hpos hle
    rw [Block.promote_eq_some.2 ⟨hpos, hle, rfl⟩, exchanged, hblock]
    rfl
  case accesses => exact fun u v => access_of_leads
  case others => exact fun u f e => step_of_access

/-- A lock that nothing comes between ends, and it need not try twice. -/
theorem exists_undisturbed (b : Block) : ∃ t r, Leads { block := b } t ∧ t.point = .ended r ∧
    ∀ e ∈ t.history, e.isForeign = false ∧ e.isFailure = false := by
  let t : Promotion := ⟨b, judge b.counts.strong, [.read b.counts.strong]⟩
  have ht : Leads { block := b } t := .single (.own (.read rfl))
  have hread : ∀ e ∈ t.history, e.isForeign = false ∧ e.isFailure = false := by
    simp [t, Moment.isForeign, Moment.isFailure]
  cases hpoint : judge b.counts.strong with
  | reading => exact absurd hpoint (judge_ne_reading _)
  | ended r => exact ⟨t, r, ht, hpoint, hread⟩
  | holding n =>
    obtain ⟨rfl, -, -⟩ := judge_eq_holding hpoint
    refine ⟨t.exchanged, .ok true, ht.tail (.own (.exchange hpoint)), rfl, ?_⟩
    rw [exchanged, List.forall_mem_append]
    exact ⟨hread, by simp [Moment.isForeign, Moment.isFailure]⟩

/-- Whatever other threads do to the block `b` meanwhile and however often an exchange fails for no
reason, a lock has done in the end what is done at one moment. It may end without either. -/
theorem atomic_of_leads (b : Block) :
    (∀ t r, Leads { block := b } t → t.point = .ended r → t.Atomic b r) ∧
      ∃ t r, Leads { block := b } t ∧ t.point = .ended r ∧
        ∀ e ∈ t.history, e.isForeign = false ∧ e.isFailure = false := by
  refine ⟨fun t r ht hend => ?_, exists_undisturbed b⟩
  rcases unpromoted_or_exchanged ht with hopen | ⟨u, hu, hopen, hpoint, rfl⟩
  · exact hopen.atomic hend
  · obtain rfl : .ok true = r := Point.ended.inj hend
    exact Unpromoted.atomic_exchanged hu hopen hpoint

/-- An owner and an observer. -/
def observed : Block where
  counts := ⟨1, 2⟩
  layout := ⟨32, 8⟩
  resource := none
  action := some .discard

/-- Another thread makes an owner after the observer has read the counter; then an exchange fails
for no reason, and the counter moves away and back. -/
def contended : Promotion where
  block := { observed with counts := ⟨3, 2⟩ }
  point := .ended (.ok true)
  history := [.read 1, .foreign 1 2, .missed 1 2, .missed 2 2, .foreign 2 1, .foreign 1 2,
    .exchanged 2]

theorem leads_contended : Leads { block := observed } contended := by
  let other (n : Nat) : Block := { observed with counts := ⟨n, 2⟩ }
  have hread : Leads { block := observed } ⟨observed, .holding 1, [.read 1]⟩ :=
    .single (.own (.read rfl))
  have hchanged : Leads { block := observed } ⟨other 2, .holding 1, [.read 1, .foreign 1 2]⟩ :=
    hread.tail (.foreign (other 2) nofun (by decide) (by decide))
  have hmissed : Leads { block := observed }
      ⟨other 2, .holding 2, [.read 1, .foreign 1 2, .missed 1 2]⟩ :=
    hchanged.tail (.own (.miss rfl))
  have hagain : Leads { block := observed }
      ⟨other 2, .holding 2, [.read 1, .foreign 1 2, .missed 1 2, .missed 2 2]⟩ :=
    hmissed.tail (.own (.miss rfl))
  refine .tail (.tail (.tail hagain (.foreign (other 1) nofun (by decide) (by decide)))
    (.foreign (other 2) nofun (by decide) (by decide))) (.own (.exchange rfl))

/-- The lock got its unit when the counter was two, and its two failures had their reasons. -/
theorem atomic_contended : Leads { block := observed } contended ∧
    contended.point = .ended (.ok true) ∧ contended.Atomic observed (.ok true) :=
  ⟨leads_contended, rfl, (atomic_of_leads observed).1 contended _ leads_contended rfl⟩

end Promotion

end SharedOwnership
