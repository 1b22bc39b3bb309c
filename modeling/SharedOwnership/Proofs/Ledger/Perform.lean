import SharedOwnership.Proofs.Ledger.Sharing
import SharedOwnership.Proofs.Ledger.Shelter

/-!
# Commands make entries

Whatever a command does at once, and whatever it leaves on the stack, is a matter of entries: no
command takes a block to its next phase by itself.

## Main definitions

* `State.Books` — what a new state and its tasks make of a ledger.
-/

namespace SharedOwnership

theorem bind_eq_ok {ε α β : Type} {x : Except ε α} {f : α → Except ε β} {b : β} :
    (x >>= f) = .ok b ↔ ∃ a, x = .ok a ∧ f a = .ok b := by
  cases x <;> simp [bind, Except.bind]

namespace State

variable {p : Command → Prop} {s s' : State} {L : Ledger} {rest : List Task}
  {next : State × List Task} {name slot : String} {h g : Handle}

theorem vacant_eq_ok {u : Unit} : s.vacant slot = .ok u ↔ s.slots.get? slot = none := by
  rw [vacant]
  cases s.slots.get? slot <;> simp

theorem handle_eq_ok : s.handle slot = .ok h ↔ s.slots.get? slot = some h := by
  rw [handle]
  cases s.slots.get? slot <;> simp

theorem requireShared_eq_ok {h : Handle} {u : Unit} :
    requireShared h = .ok u ↔ h.kind = .strong := by
  rw [requireShared]
  split <;> simp [*]

theorem pair_eq_ok {other : String} {hg : Handle × Handle} (hp : s.pair name other = .ok hg) :
    name ≠ other ∧ s.slots.get? name = some hg.1 ∧ s.slots.get? other = some hg.2 := by
  rw [pair] at hp
  split at hp
  · cases hp
  · next hne =>
    simp only [bind_eq_ok, handle_eq_ok] at hp
    obtain ⟨h, hh, g, hg, hp⟩ := hp
    split at hp
    · cases hp
    · obtain ⟨_, -, hp⟩ := bind_eq_ok.1 hp
      cases hp
      exact ⟨hne, hh, hg⟩

theorem pair_kind {other : String} {hg : Handle × Handle} (hp : s.pair name other = .ok hg) :
    hg.1.kind = hg.2.kind := by
  rw [pair] at hp
  split at hp
  · cases hp
  · simp only [bind_eq_ok] at hp
    obtain ⟨h, -, g, -, hp⟩ := hp
    split at hp
    · cases hp
    · next hkind =>
      obtain ⟨_, -, hp⟩ := bind_eq_ok.1 hp
      cases hp
      exact not_not.1 hkind

/-- What a new state and its tasks make of a ledger: entries, and tasks on behalf of commands with
the property `p` only, which no panic leaves. -/
structure Books (p : Command → Prop) (L : Ledger) (rest : List Task) (next : State × List Task) :
    Prop where
  entries : Ledger.Entries p L (next.1.ledger (next.2 ++ rest))
  obeys : ∀ c, .perform c ∈ next.2 → c.All p
  confined : Confined next.2

/-- Some tasks remain, and then the command ends. -/
theorem books_settle (ts : List Task) {puts : List (String × Handle)} {pending : Pending}
    (hts : Sheltered ts) (hnone : ∀ c, .perform c ∉ ts)
    (h : Ledger.Entries p L (s.ledger (ts ++ .settle puts pending :: rest))) :
    Books p L rest (s, ts ++ [.settle puts pending]) :=
  ⟨by simpa using h, fun c hc => absurd hc (by simpa using hnone c), hts.settle puts pending⟩

theorem books_reply (a : Answer) (h : Ledger.Entries p L (s.ledger rest)) :
    Books p L rest (s.reply a) :=
  books_settle [] .nil (by simp) h

/-- A handle that was made for a vacant slot, or the panic in its place. -/
theorem books_deliver {made : Heap × Except Panic Handle} {answer : Handle → Answer}
    (hv : s.slots.get? slot = none) (hmade : Ledger.Makes p (s.ledger rest) made) :
    Books p (s.ledger rest) rest (s.deliver slot made answer) := by
  obtain ⟨heap, e | h⟩ := made
  · refine books_reply _ ?_
    rw [ledger_withHeap s hmade.resources]
    exact hmade.error e rfl
  · refine books_reply _ ?_
    rw [ledger_put (s := { s with heap }) hv, ledger_withHeap s hmade.resources]
    exact hmade.ok h rfl

/-! ### Adoption -/

@[simp] theorem heap_start (s : State) (action : ReleaseAction) (resource : Option Nat) :
    (s.start action resource).1.heap = s.heap := by cases action <;> rfl

@[simp] theorem slots_start (s : State) (action : ReleaseAction) (resource : Option Nat) :
    (s.start action resource).1.slots = s.slots := by cases action <;> rfl

/-- A release action says something on entry, and that is all. -/
theorem entries_start (s : State) (action : ReleaseAction) (resource : Option Nat)
    (ts : List Task) : Ledger.Entries p (s.ledger ts) ((s.start action resource).1.ledger ts) := by
  cases action with
  | discard => exact .refl
  | scripted => exact .single (.note _ rfl)

/-- The tasks of a release action are those of its script, and they drop its resource. -/
theorem ledger_tasks (s : State) (action : ReleaseAction) (resource : Option Nat)
    (ts : List Task) : s.ledger (action.tasks resource ++ ts) =
      { s.ledger ts with doomed := resource.toList + (s.ledger ts).doomed } := by
  refine Ledger.ext rfl ?_ ?_ ?_ rfl <;> simp [ledger]

theorem obeys_tasks {action : ReleaseAction} {resource : Option Nat}
    (hp : Command.AllIn p action.script) {c : Command}
    (hc : .perform c ∈ action.tasks resource) : c.All p := by
  rcases ReleaseAction.mem_tasks hc with ⟨c', hc', ⟨⟩⟩ | ⟨⟨⟩⟩ | ⟨r, ⟨⟩⟩ | ⟨e, ⟨⟩⟩
  exact Command.allIn_iff.1 hp c hc'

section adoption

variable {ty : Ty} {content : Option (Content.Of ty)} {carried layout : Layout}
  {action : ReleaseAction} {fails : Bool} {new : Handle} {tasks : List Task}

theorem adoption_false (s : State) (ty : Ty) (content : Option (Content.Of ty)) (carried : Layout)
    (action : ReleaseAction) : s.adoption ty content carried action false =
      ((State.mk ((s.heap.keep (content.map Subtype.val)).1.allocate
          (.block ty.pointerSize carried) (s.heap.keep (content.map Subtype.val)).2 action).1
          s.slots s.numbered s.lastFailure s.answer s.trace).record
          (.allocated s.heap.blocks.next (.block ty.pointerSize carried)),
        .ok (.adopted ty content s.heap)) := by
  cases content <;> rfl

theorem adoption_true (s : State) (ty : Ty) (content : Option (Content.Of ty)) (carried : Layout)
    (action : ReleaseAction) :
    let layout := Layout.block ty.pointerSize carried
    let kept := s.heap.keep (content.map Subtype.val)
    s.adoption ty content carried action true =
      (((({ s with heap := kept.1 } : State).record (.allocationFailed layout)).start action
        kept.2).1, .error (layout, action.tasks kept.2)) := rfl

/-- An adoption that succeeds makes one owner. -/
theorem adoption_ok (hp : Command.AllIn p action.script) (hc : ∃ c, p c ∧ c.adopts)
    (h : s.adoption ty content carried action fails = (s', .ok new)) :
    s'.slots = s.slots ∧ ∀ ts, Ledger.Entries p (s.ledger ts)
      { s'.ledger ts with handles := new ::ₘ (s'.ledger ts).handles } := by
  cases fails with
  | true => cases h
  | false =>
    rw [adoption_false] at h
    cases h
    refine ⟨rfl, fun ts => ?_⟩
    have hadopt := Ledger.Entry.adopt (p := p) (L := s.ledger ts) ty content
      (.block ty.pointerSize carried) action hp hc
    refine (Ledger.Entries.single hadopt).congr (Ledger.ext rfl ?_ rfl rfl rfl)
    simp [record, ledger]

/-- Data that are stored without a block are going to be dropped. -/
theorem entries_keep (s : State) (c : Option Content) (ts : List Task) :
    Ledger.Entries p (s.ledger ts) { s.ledger ts with
      heap := (s.heap.keep c).1,
      doomed := ((s.heap.keep c).2.toList : Multiset Nat) + (s.ledger ts).doomed } := by
  cases c with
  | none =>
    simp only [Heap.keep, Option.toList_none, Multiset.coe_nil, zero_add]
    exact .refl
  | some c => exact .single (.orphan c)

/-- An adoption that fails leaves the resource to the release action. -/
theorem adoption_error (hp : Command.AllIn p action.script)
    (h : s.adoption ty content carried action fails = (s', .error (layout, tasks))) :
    s'.slots = s.slots ∧ (∀ ts, Ledger.Entries p (s.ledger ts) (s'.ledger (tasks ++ ts))) ∧
      (∀ c, .perform c ∈ tasks → c.All p) ∧ Sheltered tasks := by
  cases fails with
  | false =>
    rw [adoption_false] at h
    cases h
  | true =>
    rw [adoption_true] at h
    simp only [Prod.mk.injEq, Except.error.injEq] at h
    obtain ⟨rfl, -, rfl⟩ := h
    refine ⟨slots_start .., fun ts => ?_, fun c => obeys_tasks hp,
      (action.contained_tasks _).sheltered⟩
    have hkeep := entries_keep (p := p) s (content.map Subtype.val) ts
    have hnote :=
      hkeep.trans (.single (.note (.allocationFailed (.block ty.pointerSize carried)) rfl))
    have hstart := entries_start (p := p) (State.record
      { s with heap := (s.heap.keep (content.map Subtype.val)).1 }
      (.allocationFailed (.block ty.pointerSize carried))) action
      (s.heap.keep (content.map Subtype.val)).2
      (action.tasks (s.heap.keep (content.map Subtype.val)).2 ++ ts)
    refine (hnote.congr ?_).trans hstart
    rw [ledger_tasks]
    refine Ledger.ext rfl ?_ rfl rfl rfl
    simp [record, ledger]

theorem books_adoptInto (hv : s.slots.get? slot = none) (hp : Command.AllIn p action.script)
    (hc : ∃ c, p c ∧ c.adopts) (onFailure : OnFailure) : Books p (s.ledger rest) rest
      (s.adoptInto slot ty content carried action onFailure fails) := by
  rw [adoptInto]
  rcases hmade : s.adoption ty content carried action fails with ⟨s', ⟨layout, tasks⟩ | h⟩
  · obtain ⟨-, hentries, hobeys, hsheltered⟩ := adoption_error hp hmade
    refine ⟨?_, fun c hc => hobeys c (by simpa using hc), hsheltered.settle _ _⟩
    rw [List.append_assoc]
    exact hentries (.settle [] _ :: rest)
  · obtain ⟨hslots, hentries⟩ := adoption_ok hp hc hmade
    refine books_reply _ ?_
    rw [ledger_put (hslots ▸ hv)]
    exact hentries rest

end adoption

/-- A handle that is to take the place of another one, which is dropped, is one more. -/
theorem ledger_exchange (hg : s.slots.get? name = some h) (new : Handle) (pending : Pending)
    (ts : List Task) :
    (s.vacate name).ledger (.drop h :: .settle [(name, new)] pending :: ts) =
      { s.ledger ts with handles := new ::ₘ (s.ledger ts).handles } := by
  have hdrop := ledger_vacate_task hg (.drop h) .join rfl rfl rfl []
    (.settle [(name, new)] pending :: ts)
  have hnew := ledger_task s new (.settle [(name, new)] pending) .join rfl rfl rfl [] ts
  exact hdrop.trans hnew

theorem books_replace {content : Option (Content.Of h.ty)} {terms : Terms} {script : List Command}
    (hg : s.slots.get? slot = some h) (hp : Command.AllIn p script) (hc : ∃ c, p c ∧ c.adopts) :
    Books p (s.ledger rest) rest (s.replace slot h content terms script) := by
  rw [replace]
  simp only [number]
  generalize haction : ReleaseAction.scripted (s.numbered + 1) h.ty script terms.panics = action
  replace hp : Command.AllIn p action.script := haction ▸ hp
  rcases hmade : State.adoption { s with numbered := s.numbered + 1 } h.ty content terms.carried
    action terms.fails with ⟨s', ⟨layout, tasks⟩ | new⟩
  · obtain ⟨hslots, hentries, hobeys, hsheltered⟩ := adoption_error hp hmade
    refine ⟨?_, fun c hc => hobeys c (by simpa using hc), hsheltered.settle _ _⟩
    have hback := ledger_vacate_task (hslots ▸ hg) (.settle [(slot, h)] (.failed layout .abort))
      .join rfl rfl rfl tasks rest
    rw [List.append_assoc]
    exact (hentries (.join :: rest)).congr hback.symm
  · obtain ⟨hslots, hentries⟩ := adoption_ok hp hc hmade
    refine books_settle [.drop h] (.singleton _) (by simp) ((hentries rest).congr ?_)
    exact (ledger_exchange (hslots ▸ hg) new (.answer .done) rest).symm

/-! ### Projection -/

section projection

variable {c : Command} {f : Projection} {ty : Ty}

/-- The handle that a projection panics on is dropped. -/
theorem books_project (hg : s.slots.get? name = some h)
    (hv : name ≠ slot → s.slots.get? slot = none) (hp : p c) (hf : c.projection? = some f)
    (hty : f.target h.kind h.ty = some ty) :
    Books p (s.ledger rest) rest (s.project name slot h f ty) := by
  unfold project
  simp only
  split
  · next pointer hpointer =>
    have hv' : (s.vacate name).slots.get? slot = none := by
      rw [vacate, Slots.get?_erase]
      split
      · rfl
      · next hne => exact hv hne
    refine books_reply _ ?_
    rw [ledger_put hv', ledger_vacate hg rest]
    exact .single (.repoint c h _ f ty pointer rfl hp hf hty hpointer)
  · next e _ =>
    refine books_settle [.drop h, .resume e] (sheltered_raise h e) (by simp) ?_
    exact .congr .refl (ledger_vacate_task hg (.drop h) .join rfl rfl rfl [] _).symm

theorem books_projectClone (hL : (s.ledger rest).Sound) (hg : s.slots.get? name = some h)
    (hv : s.slots.get? slot = none) (hp : p c) (hf : c.projection? = some f)
    (hty : f.target h.kind h.ty = some ty) :
    Books p (s.ledger rest) rest (s.projectClone slot h f ty) := by
  have hmade : Ledger.Makes p (s.ledger rest) (s.heap.clone h) :=
    Ledger.makes_clone hL (mem_handles_ledger hg rest)
  rw [projectClone]
  rcases hclone : s.heap.clone h with ⟨heap, e | copy⟩ <;> rw [hclone] at hmade
  · refine books_reply _ ?_
    rw [ledger_withHeap s hmade.resources]
    exact hmade.error e rfl
  obtain rfl : copy = h := Heap.clone_eq_ok hclone
  simp only
  split
  · next pointer hpointer =>
    refine books_reply _ ?_
    rw [ledger_put (s := { s with heap }) hv, ledger_withHeap s hmade.resources]
    refine (hmade.ok copy rfl).trans (.single ?_)
    exact .repoint c copy _ f ty pointer rfl hp hf hty hpointer
  · next e _ =>
    refine books_settle [.drop copy, .resume e] (sheltered_raise copy e) (by simp)
      ((hmade.ok copy rfl).congr ?_)
    have hdrop := ledger_task { s with heap } copy (.drop copy) .join rfl rfl rfl []
      (.resume e :: .settle [] (.answer .done) :: rest)
    exact (gain_withHeap s hmade.resources copy rest).trans hdrop.symm

end projection

/-! ### Links -/

section links

variable {node : Nat} {x : Resource}

theorem nodeOf_eq_ok (hn : nodeOf h = .ok node) :
    h.kind = .strong ∧ ∃ part, h.pointer = some ⟨.resource node, part⟩ := by
  rw [nodeOf] at hn
  split at hn
  · next hk =>
    split at hn
    · next part hq =>
      cases hn
      exact ⟨hk.1, part, hq⟩
    · cases hn
  · cases hn

/-- An owner of a node finds its node. -/
theorem exists_node (hL : (s.ledger rest).Sound) (hg : s.slots.get? name = some h)
    (hn : nodeOf h = .ok node) : ∃ x, s.heap.resources.get? node = some x := by
  obtain ⟨hk, part, hq⟩ := nodeOf_eq_ok hn
  obtain ⟨x, hx, -⟩ := hL.exists_resource (mem_handles_ledger hg rest) hk hq rfl
  exact ⟨x, hx⟩

/-- A handle that goes into a resource stays. -/
theorem ledger_link (hx : s.heap.resources.get? node = some x) (hg : s.slots.get? slot = some g) :
    (State.vacate { s with
      heap := s.heap.modifyResource node fun r => { r with links := r.links ++ [g] } } slot).ledger
        rest =
      { s.ledger rest with
        heap := s.heap.modifyResource node fun r => { r with links := r.links ++ [g] } } := by
  have hlinks := Heap.links_modifyResource hx fun r => { r with links := r.links ++ [g] }
  refine Ledger.ext rfl ?_ rfl rfl rfl
  simp only [← Multiset.coe_add, Multiset.coe_singleton] at hlinks
  rw [← add_assoc, add_right_comm, add_left_inj] at hlinks
  simp only [handles_ledger, vacate, Slots.handles_of_get? hg, hlinks, ← Multiset.singleton_add]
  abel

/-- A handle that leaves a resource stays. -/
theorem ledger_unlink (hx : s.heap.resources.get? node = some x) {index : Nat}
    (hindex : x.links[index]? = some g) (hv : s.slots.get? slot = none) :
    (State.put { s with
      heap := s.heap.modifyResource node fun r => { r with links := r.links.eraseIdx index } } slot
      g).ledger rest =
      { s.ledger rest with
        heap := s.heap.modifyResource node fun r =>
          { r with links := r.links.eraseIdx index } } := by
  have hlinks := Heap.links_modifyResource hx fun r => { r with links := r.links.eraseIdx index }
  have hperm : (x.links : Multiset Handle) = g ::ₘ (x.links.eraseIdx index : List Handle) := by
    obtain ⟨hlt, rfl⟩ := List.getElem?_eq_some_iff.1 hindex
    exact Multiset.coe_eq_coe.2
      ((List.perm_cons_erase (List.getElem_mem hlt)).trans ((List.erase_getElem hlt).cons _))
  refine Ledger.ext rfl ?_ rfl rfl rfl
  rw [hperm, ← Multiset.singleton_add, ← add_assoc, add_left_inj] at hlinks
  simp only [handles_ledger, put, Slots.handles_put_of_vacant g hv, ← hlinks,
    ← Multiset.singleton_add]
  abel

end links

/-! ### Commands -/

/-- Units that no handle holds change. -/
theorem books_setBlock {block : Nat} {side : Kind} {reason : Refusal} {f : Block → Option Block}
    (hf : ∀ b b', s.heap.blocks.get? block = some b → f b = some b' →
      Ledger.Entries p (s.ledger rest) { s.ledger rest with heap := s.heap.setBlock block b' })
    (h : s.setBlock block side reason f = .ok next) : Books p (s.ledger rest) rest next := by
  rw [setBlock] at h
  split at h
  · cases h
  · next b hb =>
    split at h
    · cases h
    · next b' hb' =>
      cases h
      refine books_reply _ ?_
      rw [ledger_withHeap s (Heap.resources_setBlock ..)]
      exact hf b b' hb hb'

/-- Handles that are taken out of their slots for tasks stay. -/
theorem takeAll_spec (names : List String) {hs : List Handle} {reason : Option Refusal}
    (h : s.takeAll names = (s', hs, reason)) :
    s'.heap = s.heap ∧ s'.trace = s.trace ∧ s.slots.handles = s'.slots.handles + hs := by
  induction names generalizing s hs reason with
  | nil =>
    cases h
    exact ⟨rfl, rfl, (add_zero _).symm⟩
  | cons name names ih =>
    rw [takeAll] at h
    split at h
    · cases h
      exact ⟨rfl, rfl, (add_zero _).symm⟩
    · next g hg =>
      rcases htake : (s.vacate name).takeAll names with ⟨s₁, hs₁, reason₁⟩
      rw [htake] at h
      cases h
      obtain ⟨hheap, htrace, hslots⟩ := ih htake
      refine ⟨hheap, htrace, ?_⟩
      rw [Slots.handles_of_get? (handle_eq_ok.1 hg)]
      simp only [vacate] at hslots
      rw [hslots, ← Multiset.cons_coe, Multiset.add_cons]

/-- An empty handle takes the place of one that is moved away. -/
theorem ledger_take (hg : s.slots.get? name = some h) (hv : s.slots.get? slot = none) :
    ((s.put name h.emptied).put slot h).ledger rest =
      { s.ledger rest with handles := h.emptied ::ₘ (s.ledger rest).handles } := by
  have hne : slot ≠ name := by
    rintro rfl
    rw [hg] at hv
    cases hv
  have hv' : (s.put name h.emptied).slots.get? slot = none :=
    (Slots.get?_put_of_ne s.slots _ hne).trans hv
  rw [ledger_put hv', ledger_displace hg]

/-- Two handles that change places stay. -/
theorem ledger_swap (hne : name ≠ slot) (hg : s.slots.get? name = some h)
    (hg' : s.slots.get? slot = some g) (ts : List Task) :
    ((s.put name g).put slot h).ledger ts = s.ledger ts := by
  have hg'' : (s.put name g).slots.get? slot = some g :=
    (Slots.get?_put_of_ne s.slots g (Ne.symm hne)).trans hg'
  have hdisplaced := (Slots.handles_put_of_get? hg'' h).trans (Slots.handles_put_of_get? hg g)
  refine Ledger.ext rfl ?_ rfl rfl rfl
  rw [handles_ledger, handles_ledger, ← (Multiset.cons_inj_right g).1 hdisplaced]
  rfl

/-- The handles of an assignment stay until it ends, and the clone is one more. -/
theorem ledger_assign {heap : Heap} (hr : heap.resources = s.heap.resources) (hne : name ≠ slot)
    (hg : s.slots.get? name = some h) (hg' : s.slots.get? slot = some g) (new : Handle)
    (pending : Pending) (ts : List Task) :
    ((({ s with heap } : State).vacate name).vacate slot).ledger
        (.drop h :: .settle [(slot, g), (name, new)] pending :: ts) =
      { s.ledger ts with heap, handles := new ::ₘ (s.ledger ts).handles } := by
  have hg'' : (({ s with heap } : State).vacate name).slots.get? slot = some g :=
    (Slots.get?_erase_of_ne s.slots (Ne.symm hne)).trans hg'
  have hput := ledger_vacate_task hg'' (.settle [(slot, g), (name, new)] pending)
    (.settle [(name, new)] pending) rfl rfl rfl [.drop h] ts
  have hexchange := ledger_exchange (s := { s with heap }) hg new pending ts
  exact hput.trans (hexchange.trans (gain_withHeap s hr new ts).symm)

/-- A handle takes the place of another one, which is dropped. -/
theorem books_assign (hL : (s.ledger rest).Sound) (h : s.plan (.assign name slot) = .ok next) :
    Books p (s.ledger rest) rest next := by
  simp only [plan, bind_eq_ok] at h
  obtain ⟨⟨h₁, h₂⟩, hpair, h⟩ := h
  obtain ⟨hne, hg₁, hg₂⟩ := pair_eq_ok hpair
  have hmade : Ledger.Makes p (s.ledger rest) (s.heap.clone h₂) :=
    Ledger.makes_clone hL (mem_handles_ledger hg₂ rest)
  split at h
  · next heap e hclone =>
    cases h
    refine books_reply _ ?_
    rw [hclone] at hmade
    rw [ledger_withHeap s hmade.resources]
    exact hmade.error e rfl
  · next heap new hclone =>
    cases h
    rw [hclone] at hmade
    refine books_settle [.drop h₁] (.singleton _) (by simp) ((hmade.ok new rfl).congr ?_)
    exact (ledger_assign hmade.resources hne hg₁ hg₂ new (.answer .done) rest).symm

/-- Handles that race to be dropped stay until they are. -/
theorem books_raceDrop {names : List String} (h : s.plan (.raceDrop names) = .ok next) :
    Books p (s.ledger rest) rest next := by
  simp only [plan] at h
  split at h
  · next s' hs htake =>
    obtain ⟨hheap, htrace, hslots⟩ := takeAll_spec names htake
    cases h
    refine books_settle [.spawn hs] (.singleton _) (by simp)
      (.congr .refl (Ledger.ext hheap.symm ?_ rfl rfl htrace.symm))
    simp only [handles_ledger, hslots, hheap, List.cons_append, List.nil_append, List.flatMap_cons,
      Task.handles, List.map_nil, ← Multiset.coe_add]
    abel
  · next s' hs reason htake =>
    obtain ⟨hheap, htrace, hslots⟩ := takeAll_spec names htake
    cases h
    have hdrops : Contained (hs.map .drop) :=
      contained_of_forall (by simp [Task.isLost, Task.raisesOther])
    refine books_settle (hs.map .drop) hdrops.sheltered (by simp)
      (.congr .refl (Ledger.ext hheap.symm ?_ ?_ ?_ htrace.symm))
    · simp only [handles_ledger, hslots, hheap, List.flatMap_append, Task.handles_map_drop,
        List.flatMap_cons, Task.handles, List.map_nil, ← Multiset.coe_add, Multiset.coe_nil]
      abel
    · simp [ledger, Task.finishing]
    · simp [ledger, Task.doomed]

/-- An owner that is dropped while an observer is locked. -/
theorem books_raceLock (h : s.plan (.raceLock name slot) = .ok next) :
    Books p (s.ledger rest) rest next := by
  simp only [plan, bind_eq_ok, handle_eq_ok] at h
  obtain ⟨g, hg, _, -, h⟩ := h
  split at h
  · next reason _ =>
    cases h
    refine books_settle [.drop g] (.singleton _) (by simp) (.congr .refl ?_)
    exact (ledger_vacate_task hg (.drop g) .join rfl rfl rfl [] _).symm
  · next w hw =>
    rw [handle_eq_ok] at hw
    split at h
    · next reason _ =>
      cases h
      refine books_settle [.drop g] (.singleton _) (by simp) (.congr .refl ?_)
      have hput := ledger_vacate_task hw (.settle [(slot, w)] (.answer (.refused reason))) .join
        rfl rfl rfl [.drop g] rest
      exact (ledger_vacate_task hg (.drop g) .join rfl rfl rfl [] _).symm.trans hput.symm
    · cases h
      refine books_settle [.spawn [g]] (.singleton _) (by simp) (.congr .refl ?_)
      have hput := ledger_vacate_task hw (.settle [(slot, w)] .observed) .join rfl rfl rfl
        [.spawn [g]] rest
      exact (ledger_vacate_task hg (.spawn [g]) .join rfl rfl rfl [] _).symm.trans hput.symm

/-- The projection of a command, and the type of what it points at. -/
theorem target_eq_some {f : Option Projection} {k : Kind} {ty ty' : Ty} {f' : Projection}
    (h : (f.bind fun f => (f.target k ty).map (f, ·)) = some (f', ty')) :
    f = some f' ∧ f'.target k ty = some ty' := by
  obtain ⟨f, rfl, h⟩ := Option.bind_eq_some_iff.1 h
  obtain ⟨ty, hty, heq⟩ := Option.map_eq_some_iff.1 h
  cases heq
  exact ⟨rfl, hty⟩

/-- A handle is projected into its own slot, or into a vacant one. -/
theorem plan_project {name target : String} {f : Option Projection} {next : State × List Task}
    (h : s.plan (.project name target f) = .ok next) :
    (name ≠ target → s.slots.get? target = none) ∧ ∃ g f' ty, s.slots.get? name = some g ∧
      f = some f' ∧ f'.target g.kind g.ty = some ty ∧ next = s.project name target g f' ty := by
  simp only [plan] at h
  split at h
  · obtain ⟨_, hv, h⟩ := bind_eq_ok.1 h
    obtain ⟨g, hg, h⟩ := bind_eq_ok.1 h
    split at h
    · cases h
    · next f' ty hf =>
      cases h
      obtain ⟨rfl, hty⟩ := target_eq_some hf
      exact ⟨fun _ => vacant_eq_ok.1 hv, g, f', ty, handle_eq_ok.1 hg, rfl, hty, rfl⟩
  · next heq =>
    obtain ⟨g, hg, h⟩ := bind_eq_ok.1 h
    split at h
    · cases h
    · next f' ty hf =>
      cases h
      obtain ⟨rfl, hty⟩ := target_eq_some hf
      have hsame : name = target := (not_not.1 heq).symm
      exact ⟨fun hne => absurd hsame hne, g, f', ty, handle_eq_ok.1 hg, rfl, hty, rfl⟩

theorem books_plan (hL : (s.ledger rest).Sound) {c : Command} (hc : c.All p)
    (h : s.plan c = .ok next) : Books p (s.ledger rest) rest next := by
  cases c with
  | malformed guards reason =>
    simp only [plan, bind_eq_ok] at h
    obtain ⟨_, -, h⟩ := h
    cases h
  | create target ty content onFailure fails =>
    simp only [plan, bind_eq_ok, vacant_eq_ok] at h
    obtain ⟨_, hv, h⟩ := h
    cases h
    exact books_adoptInto hv (by simp [ReleaseAction.script, Command.AllIn]) ⟨_, hc.self, rfl⟩
      onFailure
  | adopt target ty content onFailure terms script =>
    simp only [plan, bind_eq_ok, vacant_eq_ok] at h
    obtain ⟨_, hv, h⟩ := h
    cases h
    have hself := hc.self
    rw [Command.All] at hc
    exact books_adoptInto (s := s.number.1) hv hc.2 ⟨_, hself, rfl⟩ onFailure
  | empty target kind ty =>
    simp only [plan, bind_eq_ok, vacant_eq_ok] at h
    obtain ⟨_, hv, h⟩ := h
    cases h
    refine books_reply _ ?_
    rw [ledger_put hv]
    exact .single (.addEmpty _ rfl rfl)
  | clone name target =>
    simp only [plan, bind_eq_ok, vacant_eq_ok, handle_eq_ok] at h
    obtain ⟨_, hv, g, hg, h⟩ := h
    cases h
    exact books_deliver hv (Ledger.makes_clone hL (mem_handles_ledger hg rest))
  | take name target =>
    simp only [plan, bind_eq_ok, vacant_eq_ok, handle_eq_ok] at h
    obtain ⟨_, hv, g, hg, h⟩ := h
    cases h
    refine books_reply _ (.congr (.single (.addEmpty g.emptied rfl rfl)) ?_)
    exact (ledger_take hg hv).symm
  | downgrade name target =>
    simp only [plan, bind_eq_ok, vacant_eq_ok, handle_eq_ok] at h
    obtain ⟨_, hv, g, hg, _, -, h⟩ := h
    cases h
    exact books_deliver hv (Ledger.makes_downgrade hL (mem_handles_ledger hg rest))
  | lock name target =>
    simp only [plan, bind_eq_ok, vacant_eq_ok, handle_eq_ok] at h
    obtain ⟨_, hv, g, hg, _, -, h⟩ := h
    cases h
    exact books_deliver hv (Ledger.makes_lock (mem_handles_ledger hg rest))
  | drop name =>
    simp only [plan, bind_eq_ok, handle_eq_ok] at h
    obtain ⟨g, hg, h⟩ := h
    cases h
    refine books_settle [.drop g] (.singleton _) (by simp) (.congr .refl ?_)
    exact (ledger_vacate_task hg (.drop g) .join rfl rfl rfl [] _).symm
  | dropOnThread name =>
    simp only [plan, bind_eq_ok, handle_eq_ok] at h
    obtain ⟨g, hg, h⟩ := h
    cases h
    refine books_settle [.spawn [g]] (.singleton _) (by simp) (.congr .refl ?_)
    exact (ledger_vacate_task hg (.spawn [g]) .join rfl rfl rfl [] _).symm
  | reset name =>
    simp only [plan, bind_eq_ok, handle_eq_ok] at h
    obtain ⟨g, hg, h⟩ := h
    cases h
    refine books_settle [.drop g] (.singleton _) (by simp)
      (.congr (.single (.addEmpty g.emptied rfl rfl)) ?_)
    exact (ledger_exchange hg g.emptied (.answer .done) rest).symm
  | replace name value terms script =>
    simp only [plan, bind_eq_ok, handle_eq_ok] at h
    obtain ⟨g, hg, _, -, h⟩ := h
    have hself := hc.self
    rw [Command.All] at hc
    split at h
    all_goals
      obtain ⟨content, -, h⟩ := bind_eq_ok.1 h
      cases h
      exact books_replace hg hc.2 ⟨_, hself, rfl⟩
  | swap name other =>
    simp only [plan, bind_eq_ok] at h
    obtain ⟨⟨g, g'⟩, hpair, h⟩ := h
    obtain ⟨hne, hg, hg'⟩ := pair_eq_ok hpair
    cases h
    exact books_reply _ (.congr .refl (ledger_swap hne hg hg' rest).symm)
  | assign name source =>
    exact books_assign hL h
  | sameAddress name other =>
    simp only [plan, bind_eq_ok] at h
    obtain ⟨g, -, g', -, h⟩ := h
    split at h
    · cases h
    · obtain ⟨_, -, h⟩ := bind_eq_ok.1 h
      cases h
      exact books_reply _ .refl
  | sameOwner name other =>
    simp only [plan, bind_eq_ok] at h
    obtain ⟨g, -, g', -, h⟩ := h
    split at h
    · cases h
    · obtain ⟨_, -, h⟩ := bind_eq_ok.1 h
      cases h
      exact books_reply _ .refl
  | read name access =>
    simp only [plan, bind_eq_ok] at h
    obtain ⟨g, -, _, -, h⟩ := h
    split at h <;> cases h <;> exact books_reply _ .refl
  | inspect name =>
    simp only [plan, bind_eq_ok] at h
    obtain ⟨g, -, h⟩ := h
    cases h
    exact books_reply _ .refl
  | debug name style =>
    simp only [plan, bind_eq_ok] at h
    obtain ⟨g, -, h⟩ := h
    split at h <;> cases h
    exact books_reply _ .refl
  | showPointer name style =>
    simp only [plan, bind_eq_ok] at h
    obtain ⟨g, -, _, -, h⟩ := h
    split at h <;> cases h
    exact books_reply _ .refl
  | project name target f =>
    obtain ⟨hv, g, f', ty, hg, rfl, hty, rfl⟩ := plan_project h
    exact books_project hg hv hc.self rfl hty
  | projectClone name target f =>
    simp only [plan, bind_eq_ok, vacant_eq_ok, handle_eq_ok] at h
    obtain ⟨_, hv, g, hg, h⟩ := h
    split at h
    · cases h
    · next f' ty hf =>
      cases h
      obtain ⟨rfl, hty⟩ := target_eq_some hf
      exact books_projectClone hL hg hv hc.self rfl hty
  | link name child =>
    simp only [plan, bind_eq_ok, handle_eq_ok] at h
    obtain ⟨g, hg, g', hg', node, hnode, h⟩ := h
    cases h
    have hg'' : s.slots.get? name = some g' := by
      rw [vacate, Slots.get?_erase] at hg'
      split at hg'
      · cases hg'
      · exact hg'
    obtain ⟨x, hx⟩ := exists_node hL hg'' hnode
    have hrelink := Ledger.Entry.relink (p := p) (L := s.ledger rest) node
      (fun r => { r with links := r.links ++ [g] }) fun _ => rfl
    exact books_reply _ (.congr (.single hrelink) (ledger_link hx hg).symm)
  | unlink name target index =>
    simp only [plan, bind_eq_ok, vacant_eq_ok, handle_eq_ok] at h
    obtain ⟨_, hv, g, hg, node, hnode, h⟩ := h
    obtain ⟨x, hx⟩ := exists_node hL hg hnode
    rw [hx, Option.bind_some] at h
    split at h
    · cases h
    · next g' hindex =>
      cases h
      have hrelink := Ledger.Entry.relink (p := p) (L := s.ledger rest) node
        (fun r => { r with links := r.links.eraseIdx index }) fun _ => rfl
      exact books_reply _ (.congr (.single hrelink) (ledger_unlink hx hindex hv).symm)
  | churn name threads rounds =>
    simp only [plan, bind_eq_ok, handle_eq_ok] at h
    obtain ⟨g, hg, h⟩ := h
    cases h
    refine books_reply _ ?_
    rw [ledger_withHeap s (Heap.resources_churn ..)]
    exact Ledger.entries_churn hL (mem_handles_ledger hg rest) rounds threads
  | raceDrop names => exact books_raceDrop h
  | raceLock name observer => exact books_raceLock h
  | leak block side n =>
    refine books_setBlock (fun b b' hb hlend => ?_) h
    exact .single (.lend side n block b b' hb hlend)
  | unleak block side n =>
    refine books_setBlock (fun b b' hb htake => ?_) h
    exact .single (.takeBack side n block b b' hb htake)
  | slots =>
    cases h
    exact books_reply _ .refl

end State

end SharedOwnership
