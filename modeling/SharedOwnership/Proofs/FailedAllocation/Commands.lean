import SharedOwnership.Proofs.Begin
import SharedOwnership.Proofs.Erasure
import SharedOwnership.Proofs.FailedAllocation.Numbers

/-!
# Commands whose allocation fails

Whatever adopts a resource comes down to one thing if there is no memory for the control block: the
resource is stored without a block, the failure is told, and the release action is what is to be
done next. What ends the command waits below it.

## Main definitions

* `Command.failsToAllocate`, `Command.spared` — whether the allocation of a command fails, and the
  same command without that failure.
* `Command.Fails` — what such a command supplies, and which handle it works on.
* `State.handOver` — a state that was handed a resource and its release action.

## Main results

* `State.exists_fails` — a command whose allocation fails is refused, or it supplies something.
* `Command.Fails.begin_eq` — what such a command does at first.
* `Command.Fails.adopts_spared` — what it would have done otherwise.
-/

namespace SharedOwnership

namespace Command

/-- Whether the control block of a command, if it makes one, cannot be allocated. -/
def failsToAllocate : Command → Bool
  | .create _ _ _ _ fails => fails
  | .adopt _ _ _ _ terms _ | .replace _ _ terms _ => terms.fails
  | _ => false

/-- The same command, when there is memory for the control block. -/
def spared : Command → Command
  | .create target ty content onFailure _ => .create target ty content onFailure false
  | .adopt target ty content onFailure terms script =>
    .adopt target ty content onFailure { terms with fails := false } script
  | .replace handle value terms script => .replace handle value { terms with fails := false } script
  | c => c

/-- What a command supplies whose allocation fails in the state `s`, what it does about the failure,
and the handle that it puts back into its slot. -/
inductive Fails (s : State) : Command → Supply → OnFailure → List (String × Handle) → Prop
  | create (target : String) (ty : Ty) (content : Content.Of ty) (onFailure : OnFailure)
      (hvacant : s.slots.get? target = none) :
    Fails s (.create target ty content onFailure true) ⟨ty, some content, .none, .discard⟩
      onFailure []
  | adopt (target : String) (ty : Ty) (content : Option (Content.Of ty)) (onFailure : OnFailure)
      (terms : Terms) (script : List Command) (hvacant : s.slots.get? target = none)
      (hfails : terms.fails = true) :
    Fails s (.adopt target ty content onFailure terms script)
      ⟨ty, content, terms.carried, .scripted (s.numbered + 1) ty script terms.panics⟩ onFailure []
  | replaceNull (handle : String) (h : Handle) (terms : Terms) (script : List Command)
      (hg : s.slots.get? handle = some h) (hkind : h.kind = .strong) (hfails : terms.fails = true) :
    Fails s (.replace handle .null terms script)
      ⟨h.ty, none, terms.carried, .scripted (s.numbered + 1) h.ty script terms.panics⟩ .abort
      [(handle, h)]
  | replace (handle : String) (h : Handle) (value : Datum) (content : Content.Of h.ty)
      (terms : Terms) (script : List Command) (hg : s.slots.get? handle = some h)
      (hkind : h.kind = .strong) (hfails : terms.fails = true) (hvalue : value ≠ .null)
      (hcontent : value.content h.ty = .ok content) :
    Fails s (.replace handle value terms script)
      ⟨h.ty, some content, terms.carried, .scripted (s.numbered + 1) h.ty script terms.panics⟩
      .abort [(handle, h)]

end Command

namespace State

/-- The state that was handed what a command supplies, while the command works on some handles. -/
def handOver (s : State) (a : Supply) (puts : List (String × Handle)) : State :=
  { s with
    heap := (s.heap.keep (a.content.map Subtype.val)).1
    slots := puts.foldl (fun slots put => slots.erase put.1) s.slots
    numbered := a.action.number?.getD s.numbered }

variable {s : State} {c : Command} {a : Supply} {onFailure : OnFailure}
  {puts : List (String × Handle)} {next : State × List Task}

/-- A command whose allocation fails is refused, or it supplies something. -/
theorem exists_fails (hc : c.failsToAllocate) (hplan : s.plan c = .ok next) :
    ∃ a onFailure puts, c.Fails s a onFailure puts := by
  cases c with
  | create target ty content onFailure fails =>
    obtain rfl : fails = true := hc
    simp only [plan, bind_eq_ok, vacant_eq_ok] at hplan
    obtain ⟨-, hvacant, -⟩ := hplan
    exact ⟨_, _, _, .create target ty content onFailure hvacant⟩
  | adopt target ty content onFailure terms script =>
    simp only [plan, bind_eq_ok, vacant_eq_ok] at hplan
    obtain ⟨-, hvacant, -⟩ := hplan
    exact ⟨_, _, _, .adopt target ty content onFailure terms script hvacant hc⟩
  | replace handle value terms script =>
    simp only [plan, bind_eq_ok, handle_eq_ok, requireShared_eq_ok] at hplan
    obtain ⟨h, hg, -, hkind, hplan⟩ := hplan
    split at hplan
    · exact ⟨_, _, _, .replaceNull handle h terms script hg hkind hc⟩
    · next hvalue =>
      obtain ⟨_, hcontent, -⟩ := bind_eq_ok.1 hplan
      cases hcontent' : value.content h.ty with
      | error reason => simp [hcontent', Functor.map, Except.map] at hcontent
      | ok content =>
        exact ⟨_, _, _, .replace handle h value content terms script hg hkind hc hvalue hcontent'⟩
  | _ => cases hc

/-- The resource that is handed over has the data that were supplied. -/
theorem get?_resources_handOver {r : Nat} (puts : List (String × Handle))
    (hr : a.resource s.heap = some r) :
    ∃ x, (s.handOver a puts).heap.resources.get? r = some x ∧
      a.content.map Subtype.val = some x.content := by
  obtain ⟨c, hc, rfl⟩ := Option.map_eq_some_iff.1 hr
  refine ⟨{ content := c.1 }, ?_, by rw [hc, Option.map_some]⟩
  rw [handOver, hc]
  exact Heap.get?_resources_keep_next s.heap c.1

/-- What is left to do once the allocation has failed. -/
def failedNext (s : State) (a : Supply) (onFailure : OnFailure) (puts : List (String × Handle)) :
    State × List Task :=
  ((((s.handOver a puts).record (.allocationFailed a.layout)).start a.action
      (a.resource s.heap)).1,
    a.action.tasks (a.resource s.heap) ++ [.settle puts (.failed a.layout onFailure)])

variable {target handle : String} {h : Handle} {terms : Terms} {script : List Command}

theorem adoptInto_true (s : State) (target : String) (a : Supply) (onFailure : OnFailure) :
    ({ s with numbered := a.action.number?.getD s.numbered } : State).adoptInto target a.ty
      a.content a.carried a.action onFailure true = s.failedNext a onFailure [] := by
  rw [adoptInto, adoption_true, a.label_keep]
  rfl

theorem replace_true (s : State) (handle : String) (h : Handle) (content : Option (Content.Of h.ty))
    (terms : Terms) (script : List Command) (hfails : terms.fails = true) :
    s.replace handle h content terms script = s.failedNext ⟨h.ty, content, terms.carried,
      .scripted (s.numbered + 1) h.ty script terms.panics⟩ .abort [(handle, h)] := by
  have hlabel := Supply.label_keep ⟨h.ty, content, terms.carried,
    .scripted (s.numbered + 1) h.ty script terms.panics⟩ s.heap
  rw [replace, hfails]
  simp only [number, adoption_true, hlabel]
  rfl

theorem adopts_replace_false (s : State) (handle : String) (h : Handle)
    (content : Option (Content.Of h.ty)) (terms : Terms) (script : List Command)
    (hfails : terms.fails = false) :
    s.Adopts ⟨h.ty, content, terms.carried, .scripted (s.numbered + 1) h.ty script terms.panics⟩
      (s.replace handle h content terms script).1 := by
  have hadopts := s.number.1.adopts_adoption_false
    ⟨h.ty, content, terms.carried, .scripted (s.numbered + 1) h.ty script terms.panics⟩
  rw [replace, hfails]
  exact ⟨hadopts.heap, hadopts.trace⟩

end State

namespace Command.Fails

variable {s : State} {c : Command} {a : Supply} {onFailure : OnFailure}
  {puts : List (String × Handle)}

/-- The release action is what comes first, and then the failure is answered for. -/
theorem begin_eq (h : c.Fails s a onFailure puts) : s.begin c = s.failedNext a onFailure puts := by
  cases h with
  | create target ty content onFailure hvacant =>
    rw [State.begin_create hvacant]
    exact s.adoptInto_true target ⟨ty, some content, .none, .discard⟩ onFailure
  | adopt target ty content onFailure terms script hvacant hfails =>
    rw [State.begin_adopt hvacant, hfails]
    exact s.adoptInto_true target
      ⟨ty, content, terms.carried, .scripted (s.numbered + 1) ty script terms.panics⟩ onFailure
  | replaceNull handle h terms script hg hkind hfails =>
    rw [State.begin_replaceNull hg hkind]
    exact s.replace_true handle h none terms script hfails
  | replace handle h value content terms script hg hkind hfails hvalue hcontent =>
    rw [State.begin_replace hg hkind hvalue hcontent]
    exact s.replace_true handle h (some content) terms script hfails

/-- With memory for the control block, the command makes one of what it supplies. -/
theorem adopts_spared (h : c.Fails s a onFailure puts) :
    c.spared.Supplies s a ∧ s.Adopts a (s.begin c.spared).1 := by
  cases h with
  | create target ty content onFailure hvacant =>
    have hadopts := s.adopts_adoption_false ⟨ty, some content, .none, .discard⟩
    refine ⟨.create target ty content onFailure false, ?_⟩
    rw [spared, State.begin_create hvacant]
    exact ⟨hadopts.heap, hadopts.trace⟩
  | adopt target ty content onFailure terms script hvacant hfails =>
    have hadopts := s.number.1.adopts_adoption_false
      ⟨ty, content, terms.carried, .scripted (s.numbered + 1) ty script terms.panics⟩
    refine ⟨.adopt target ty content onFailure { terms with fails := false } script, ?_⟩
    rw [spared, State.begin_adopt hvacant]
    exact ⟨hadopts.heap, hadopts.trace⟩
  | replaceNull handle h terms script hg hkind hfails =>
    refine ⟨.replaceNull handle h { terms with fails := false } script hg, ?_⟩
    rw [spared, State.begin_replaceNull hg hkind]
    exact s.adopts_replace_false handle h none { terms with fails := false } script rfl
  | replace handle h value content terms script hg hkind hfails hvalue hcontent =>
    refine ⟨.replace handle h value content { terms with fails := false } script hg hcontent, ?_⟩
    rw [spared, State.begin_replace hg hkind hvalue hcontent]
    exact s.adopts_replace_false handle h (some content) { terms with fails := false } script rfl

/-- The handle that the command works on was in its slot. -/
theorem handles_handOver (h : c.Fails s a onFailure puts) :
    (s.handOver a puts).slots.handles + (puts.map Prod.snd : List Handle) = s.slots.handles := by
  have hslot : ∀ {handle g}, s.slots.get? handle = some g →
      (s.slots.erase handle).handles + ([g] : List Handle) = s.slots.handles := by
    intro handle g hg
    rw [Slots.handles_of_get? hg, Multiset.coe_singleton, Multiset.add_comm,
      Multiset.singleton_add]
  cases h with
  | create | adopt => exact Multiset.add_zero _
  | replaceNull handle h terms script hg => exact hslot hg
  | replace handle h value content terms script hg => exact hslot hg

theorem length_puts_le (h : c.Fails s a onFailure puts) : puts.length ≤ 1 := by
  cases h <;> simp

/-- An owner that was to be replaced goes back into its slot. -/
theorem of_replace {name : String} {value : Datum} {terms : Terms} {script : List Command}
    {g : Handle} (h : (Command.replace name value terms script).Fails s a onFailure puts)
    (hg : s.slots.get? name = some g) : onFailure = .abort ∧ puts = [(name, g)] := by
  cases h with
  | replaceNull _ _ _ _ hg' | replace _ _ _ _ _ _ hg' =>
    rw [Option.some.inj (hg.symm.trans hg')]
    exact ⟨rfl, rfl⟩

/-- A release action that has a number has the next one. -/
theorem number_eq {i : Nat} (h : c.Fails s a onFailure puts) (hi : a.action.number? = some i) :
    i = s.numbered + 1 := by
  cases h with
  | create => cases hi
  | adopt | replaceNull | replace => exact (Option.some.inj hi).symm

end Command.Fails

end SharedOwnership
