import SharedOwnership.Proofs.Ledger.Perform

/-!
# What a command does at first

A command whose operands are in their slots, and whose target is vacant, comes down to one operation
on the state. What comes of that operation is a matter of the heap alone, be it a further handle, a
panic or a failed allocation.

## Main results

* `State.begin_clone` and its kind — the operation that a command comes down to.
* `Machine.step_perform` — the step that carries it out.
-/

namespace SharedOwnership

namespace State

variable {s : State} {c : Command} {next : State × List Task} {target handle : String}
  {h g : Handle} {terms : Terms} {script : List Command}

theorem begin_of_plan (hplan : s.plan c = .ok next) : s.begin c = next := by rw [begin, hplan]

/-! ### Adoption -/

theorem begin_create {ty : Ty} {content : Content.Of ty} {fails : Bool}
    (hvacant : s.slots.get? target = none) :
    s.begin (.create target ty content onFailure fails) =
      s.adoptInto target ty (some content) .none .discard onFailure fails := by
  have hplan : s.plan (.create target ty content onFailure fails) = .ok _ :=
    bind_eq_ok.2 ⟨(), vacant_eq_ok.2 hvacant, rfl⟩
  exact begin_of_plan hplan

theorem begin_adopt {ty : Ty} {content : Option (Content.Of ty)}
    (hvacant : s.slots.get? target = none) :
    s.begin (.adopt target ty content onFailure terms script) =
      s.number.1.adoptInto target ty content terms.carried
        (.scripted (s.numbered + 1) ty script terms.panics) onFailure terms.fails := by
  have hplan : s.plan (.adopt target ty content onFailure terms script) = .ok _ :=
    bind_eq_ok.2 ⟨(), vacant_eq_ok.2 hvacant, rfl⟩
  exact begin_of_plan hplan

theorem begin_replaceNull (hg : s.slots.get? handle = some h) (hkind : h.kind = .strong) :
    s.begin (.replace handle .null terms script) = s.replace handle h none terms script := by
  have hplan : s.plan (.replace handle .null terms script) = .ok _ :=
    bind_eq_ok.2 ⟨h, handle_eq_ok.2 hg, bind_eq_ok.2 ⟨(), requireShared_eq_ok.2 hkind, rfl⟩⟩
  exact begin_of_plan hplan

theorem begin_replace {value : Datum} {content : Content.Of h.ty}
    (hg : s.slots.get? handle = some h) (hkind : h.kind = .strong) (hvalue : value ≠ .null)
    (hcontent : value.content h.ty = .ok content) :
    s.begin (.replace handle value terms script) =
      s.replace handle h (some content) terms script := by
  have hmap : some <$> value.content h.ty = .ok (some content) := by rw [hcontent]; rfl
  have hplan : s.plan (.replace handle value terms script) =
      .ok (s.replace handle h (some content) terms script) := by
    refine bind_eq_ok.2 ⟨h, handle_eq_ok.2 hg, bind_eq_ok.2 ⟨(), requireShared_eq_ok.2 hkind, ?_⟩⟩
    cases value with
    | null => exact absurd rfl hvalue
    | _ => exact bind_eq_ok.2 ⟨some content, hmap, rfl⟩
  exact begin_of_plan hplan

/-! ### Further handles -/

theorem begin_clone (hg : s.slots.get? handle = some h) (hv : s.slots.get? target = none) :
    s.begin (.clone handle target) = s.deliver target (s.heap.clone h) fun _ => .done :=
  begin_of_plan <| bind_eq_ok.2 ⟨(), vacant_eq_ok.2 hv,
    bind_eq_ok.2 ⟨h, handle_eq_ok.2 hg, rfl⟩⟩

theorem begin_downgrade (hg : s.slots.get? handle = some h) (hv : s.slots.get? target = none)
    (hk : h.kind = .strong) :
    s.begin (.downgrade handle target) = s.deliver target (s.heap.downgrade h) fun _ => .done :=
  begin_of_plan <| bind_eq_ok.2 ⟨(), vacant_eq_ok.2 hv,
    bind_eq_ok.2 ⟨h, handle_eq_ok.2 hg, bind_eq_ok.2 ⟨(), requireShared_eq_ok.2 hk, rfl⟩⟩⟩

theorem begin_lock (hg : s.slots.get? handle = some h) (hv : s.slots.get? target = none)
    (hk : h.kind = .weak) : s.begin (.lock handle target) =
      s.deliver target (s.heap.lock h) fun owner => .locked owner.pointer.isNone := by
  have hweak : requireWeak h = .ok () := by rw [requireWeak, if_pos hk]
  exact begin_of_plan <| bind_eq_ok.2 ⟨(), vacant_eq_ok.2 hv,
    bind_eq_ok.2 ⟨h, handle_eq_ok.2 hg, bind_eq_ok.2 ⟨(), hweak, rfl⟩⟩⟩

/-! ### Handles that are dropped or replaced -/

theorem begin_drop (hg : s.slots.get? handle = some h) : s.begin (.drop handle) =
    (s.vacate handle, [.drop h, .settle [] (.answer .done)]) :=
  begin_of_plan <| bind_eq_ok.2 ⟨h, handle_eq_ok.2 hg, rfl⟩

theorem begin_reset (hg : s.slots.get? handle = some h) : s.begin (.reset handle) =
    (s.vacate handle, [.drop h, .settle [(handle, h.emptied)] (.answer .done)]) :=
  begin_of_plan <| bind_eq_ok.2 ⟨h, handle_eq_ok.2 hg, rfl⟩

/-- The handle that is assigned is cloned before the one that it takes the place of is dropped. -/
theorem begin_assign {source : String} (hpair : s.pair handle source = .ok (h, g)) :
    s.begin (.assign handle source) =
      match s.heap.clone g with
      | (heap, .error e) => ({ s with heap } : State).reply (.panicked e)
      | (heap, .ok new) => ((({ s with heap } : State).vacate handle).vacate source,
        [.drop h, .settle [(source, g), (handle, new)] (.answer .done)]) := by
  refine begin_of_plan (bind_eq_ok.2 ⟨(h, g), hpair, ?_⟩)
  simp only
  rcases s.heap.clone g with ⟨heap, e | new⟩ <;> rfl

/-! ### Comparisons -/

theorem begin_sameOwner {other : String} (hg : s.slots.get? handle = some h)
    (hg' : s.slots.get? other = some g) (hkind : h.kind = g.kind) (hty : h.ty = g.ty) :
    s.begin (.sameOwner handle other) = s.reply (.flag (h.block = g.block)) := by
  refine begin_of_plan ?_
  simp only [plan, State.handle, hg, hg', bind, Except.bind, requireSameType, hkind, hty, ne_eq,
    not_true_eq_false, if_true, if_false]
  rfl

theorem begin_sameAddress {other : String} (hg : s.slots.get? handle = some h)
    (hg' : s.slots.get? other = some g) (hk : h.kind = .strong) (hk' : g.kind = .strong)
    (hty : h.ty = g.ty) : s.begin (.sameAddress handle other) =
      s.reply (.flag (h.pointer.map s.heap.address = g.pointer.map s.heap.address)) := by
  refine begin_of_plan ?_
  simp only [plan, State.handle, hg, hg', bind, Except.bind, requireSameType, hk, hk', hty,
    reduceCtorEq, or_self, if_true, if_false]
  rfl

/-! ### Projections -/

section projection

variable {f : Projection} {ty : Ty}

theorem begin_project (hg : s.slots.get? handle = some h)
    (hv : target ≠ handle → s.slots.get? target = none)
    (hty : f.target h.kind h.ty = some ty) :
    s.begin (.project handle target (some f)) = s.project handle target h f ty := by
  have hfound : ((some f).bind fun f => (f.target h.kind h.ty).map (f, ·)) = some (f, ty) := by
    rw [Option.bind_some, hty, Option.map_some]
  apply begin_of_plan
  simp only [plan]
  split
  · next hne =>
    refine bind_eq_ok.2 ⟨(), vacant_eq_ok.2 (hv hne), bind_eq_ok.2 ⟨h, handle_eq_ok.2 hg, ?_⟩⟩
    rw [hfound]
    rfl
  · refine bind_eq_ok.2 ⟨h, handle_eq_ok.2 hg, ?_⟩
    rw [hfound]
    rfl

theorem begin_projectClone (hg : s.slots.get? handle = some h) (hv : s.slots.get? target = none)
    (hty : f.target h.kind h.ty = some ty) :
    s.begin (.projectClone handle target (some f)) = s.projectClone target h f ty := by
  have hfound : ((some f).bind fun f => (f.target h.kind h.ty).map (f, ·)) = some (f, ty) := by
    rw [Option.bind_some, hty, Option.map_some]
  refine begin_of_plan (bind_eq_ok.2 ⟨(), vacant_eq_ok.2 hv,
    bind_eq_ok.2 ⟨h, handle_eq_ok.2 hg, ?_⟩⟩)
  rw [hfound]
  rfl

end projection

end State

namespace Machine

variable {m : Machine} {s : State} {c : Command} {next : State × List Task} {t : Task}
  {rest : List Task}

theorem advance_perform (h : s.begin c = next) (rest : List Task) :
    advance s (.perform c) rest = run next rest := by
  rw [advance, h]

theorem step_of_running (hcontrol : m.control = .running) (hstack : m.stack = t :: rest) :
    m.step = advance m.state t rest := by
  rw [step, hcontrol, hstack]

theorem step_perform (hcontrol : m.control = .running) (hstack : m.stack = .perform c :: rest)
    (h : m.state.begin c = next) : m.step = run next rest := by
  rw [step_of_running hcontrol hstack, advance_perform h]

end Machine

end SharedOwnership
