import SharedOwnership.Proofs.Interleaving

/-!
# An operation that is not disturbed

The accesses of an operation that no other thread comes between add up to what the same operation
does in a single thread: making a handle adds a unit, and a lock promotes.

## Main definitions

* `Frame.Alone` — what an undisturbed operation comes to.

## Main results

* `Frame.alone_add_iff`, `Frame.alone_load_iff` — it is what a single thread comes to.
* `Threads.leads_alone` — threads may come to it.
-/

namespace SharedOwnership

namespace Frame

/-- An operation makes its accesses one directly after the other and leaves this block and, maybe, a
handle of this kind. An exchange that fails for no reason leaves the operation where it was, which
is left out. -/
inductive Alone : Block → Frame → Block × Option Kind → Prop
  | last {b : Block} {f : Frame} {e : Effect} (he : f.Access b e) (hframes : e.frames = []) :
    Alone b f (e.block, e.made)
  | next {b : Block} {f g : Frame} {e : Effect} {out : Block × Option Kind} (he : f.Access b e)
      (hframes : e.frames = [g]) (hne : g ≠ f) (hrest : Alone e.block g out) : Alone b f out

variable {b : Block} {k : Kind} {h n : Nat} {out : Block × Option Kind}

/-- Making a handle adds a unit; above the limit it panics, and there is no handle. -/
theorem alone_add_iff : Alone b (.add k h) out ↔
    (b.addUnit k).2 = .ok () ∧ out = ((b.addUnit k).1, some k) ∨
      (b.addUnit k).2 = .error k.overflow ∧ out = ((b.addUnit k).1, none) := by
  constructor
  · intro halone
    cases halone with
    | last he hframes =>
      cases he with
      | add hle => exact .inl ⟨Block.addUnit_of_le hle, rfl⟩
      | overflow hlt => exact .inr ⟨Block.addUnit_of_lt hlt, rfl⟩
    | next he hframes hne hrest => cases he <;> cases hframes
  · rcases Nat.lt_or_ge unitLimit (b.counts.get k) with hlt | hle
    · rintro (⟨hok, -⟩ | ⟨-, rfl⟩)
      · rw [Block.addUnit_of_lt hlt] at hok
        cases hok
      · exact .last (.overflow hlt) rfl
    · rintro (⟨-, rfl⟩ | ⟨herror, -⟩)
      · exact .last (.add hle) rfl
      · rw [Block.addUnit_of_le hle] at herror
        cases herror

/-- An exchange succeeds just where a single thread promotes. -/
theorem alone_exchange_iff (hn : b.counts.strong = n) : Alone b (.exchange h n) out ↔
    (∃ b', b.promote = .ok (some b') ∧ out = (b', some .strong)) ∨
      (∀ b', b.promote ≠ .ok (some b')) ∧ out = (b, none) := by
  have hpromote : ∀ b', b.promote = .ok (some b') ↔ 0 < n ∧ n ≤ unitLimit ∧
      b' = { b with counts := b.counts.modify .strong fun _ => n + 1 } := by
    intro b'
    rw [Block.promote_eq_some, ← hn]
    rfl
  constructor
  · intro halone
    cases halone with
    | last he hframes =>
      cases he with
      | refuse => exact .inr ⟨fun b' hb' => absurd ((hpromote b').1 hb').1 (Nat.lt_irrefl 0), rfl⟩
      | exceed hlt =>
        exact .inr ⟨fun b' hb' => absurd ((hpromote b').1 hb').2.1 (Nat.not_le.2 hlt), rfl⟩
      | exchange hpos hle => exact .inl ⟨_, (hpromote _).2 ⟨hpos, hle, rfl⟩, rfl⟩
      | retry => cases hframes
    | next he hframes hne hrest =>
      cases he with
      | retry =>
        cases hframes
        exact absurd (congrArg (Frame.exchange h) hn) hne
      | refuse | exceed | exchange => cases hframes
  · rintro (⟨b', hb', rfl⟩ | ⟨hnot, rfl⟩)
    · obtain ⟨hpos, hle, rfl⟩ := (hpromote b').1 hb'
      exact .last (.exchange hpos hle hn) rfl
    · rcases Nat.eq_zero_or_pos n with rfl | hpos
      · exact .last .refuse rfl
      · by_cases hle : n ≤ unitLimit
        · exact absurd ((hpromote _).2 ⟨hpos, hle, rfl⟩) (hnot _)
        · exact .last (.exceed (Nat.not_le.1 hle)) rfl

/-- A lock does what a single thread does: it promotes, if it can. -/
theorem alone_load_iff : Alone b (.load h) out ↔
    (∃ b', b.promote = .ok (some b') ∧ out = (b', some .strong)) ∨
      (∀ b', b.promote ≠ .ok (some b')) ∧ out = (b, none) := by
  rw [← alone_exchange_iff (h := h) rfl]
  constructor
  · intro halone
    cases halone with
    | last he hframes => cases he; cases hframes
    | next he hframes hne hrest =>
      cases he
      cases hframes
      exact hrest
  · exact fun hrest => .next .load rfl nofun hrest

/-- An operation that goes on has made no handle so far. -/
theorem Access.made_eq_none {f g : Frame} {e : Effect} (he : f.Access b e)
    (hframes : e.frames = [g]) : e.made = none := by
  cases he with
  | add | exchange => cases hframes
  | _ => rfl

end Frame

/-- A thread that is not disturbed ends its operation, and the other threads stay where they are. -/
theorem Threads.leads_alone {t : Threads} {i : Nat} {f : Frame} {below : List Frame}
    {out : Block × Option Kind} (hi : t.calls[i]? = some (f :: below))
    (halone : f.Alone t.block out) : ∃ log, Leads t {
      block := out.1,
      handles := out.2.elim t.handles t.handles.insert,
      calls := t.calls.set i below,
      log } := by
  generalize hb : t.block = b at halone
  induction halone generalizing t with
  | @last b f e he hframes =>
    subst hb
    have hstep := Step.access hi he
    rw [hframes, List.nil_append] at hstep
    exact ⟨_, .single hstep⟩
  | @next b f g e out he hframes hne hrest ih =>
    subst hb
    have hstep := Step.access hi he
    rw [hframes, he.made_eq_none hframes, List.singleton_append] at hstep
    obtain ⟨log, hleads⟩ := ih (t := { t with
      block := e.block, calls := t.calls.set i (g :: below), log := t.log ++ e.told })
      (List.getElem?_set_self (List.getElem?_eq_some_iff.1 hi).1) rfl
    rw [List.set_set] at hleads
    exact ⟨log, hleads.head hstep⟩

end SharedOwnership
