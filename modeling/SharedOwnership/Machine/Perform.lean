import SharedOwnership.Machine.Teardown

/-!
# Carrying out commands

A command looks at its operands, changes the state as far as it can at once, and leaves tasks for
what may run release actions. While such tasks run, the handles that the command works on are out
of their slots; the task that ends the command puts them back.

## Main definitions

* `Plan` — a changed state and the tasks that remain, or a refusal.
* `State.adoption` — a new control block, or the consequences of a failed allocation.
* `State.plan` — what a command does.
* `State.begin` — a command's state and tasks, a refusal being an answer like any other.
-/

namespace SharedOwnership

/-- A changed state and the tasks that remain, or a refusal. -/
abbrev Plan := Except Refusal (State × List Task)

namespace State

/-- End a command at once. -/
def reply (s : State) (a : Answer) : State × List Task := (s, [.settle [] (.answer a)])

/-- End a command that made a handle for a slot, or panicked. -/
def deliver (s : State) (target : String) (made : Heap × Except Panic Handle)
    (answer : Handle → Answer) : State × List Task :=
  let s := { s with heap := made.1 }
  match made.2 with
  | .ok h => (s.put target h).reply (answer h)
  | .error p => s.reply (.panicked p)

/-- Refuse unless a handle is an owner. -/
def requireShared (h : Handle) : Except Refusal Unit :=
  if h.kind = .strong then .ok () else .error .notShared

/-- Refuse unless a handle is an observer. -/
def requireWeak (h : Handle) : Except Refusal Unit :=
  if h.kind = .weak then .ok () else .error .notWeak

/-- Refuse unless two handles have one type. -/
def requireSameType (h g : Handle) : Except Refusal Unit :=
  if h.ty = g.ty then .ok () else .error .differentTypes

/-- Two different slots with handles of one kind and type. -/
def pair (s : State) (handle other : String) : Except Refusal (Handle × Handle) := do
  if handle = other then .error .notDistinct
  let h ← s.handle handle
  let g ← s.handle other
  if h.kind ≠ g.kind then .error .differentKinds
  requireSameType h g
  return (h, g)

/-- The resource that a handle to a node points at. -/
def nodeOf (h : Handle) : Except Refusal Nat :=
  if h.kind = .strong ∧ h.ty = .node then
    match h.pointer with
    | some ⟨.resource l, _⟩ => .ok l
    | _ => .error .emptyHandle
  else .error .notNode

/-- Adopt data, or no resource, under a release action: an owner of it, or the layout that could not
be allocated with what the release action does about the resource. -/
def adoption (s : State) (ty : Ty) (content : Option (Content.Of ty)) (carried : Layout)
    (action : ReleaseAction) (fails : Bool) : State × Except (Layout × List Task) Handle :=
  let layout := Layout.block ty.pointerSize carried
  let (heap, resource) := s.heap.keep (content.map Subtype.val)
  let s := { s with heap }
  if fails then
    let (s, tasks) := (s.record (.allocationFailed layout)).start action resource
    (s, .error (layout, tasks))
  else
    let (heap, block) := s.heap.allocate layout resource action
    let pointer := content.bind fun c => resource.map (Pointer.whole · c.1)
    ({ s with heap }.record (.allocated block layout),
      .ok { kind := .strong, ty, pointer, block := some block })

/-- Adopt into a slot. -/
def adoptInto (s : State) (target : String) (ty : Ty) (content : Option (Content.Of ty))
    (carried : Layout) (action : ReleaseAction) (onFailure : OnFailure) (fails : Bool) :
    State × List Task :=
  match s.adoption ty content carried action fails with
  | (s, .ok h) => (s.put target h).reply .done
  | (s, .error (layout, tasks)) => (s, tasks ++ [.settle [] (.failed layout onFailure)])

/-- Number the next release action. -/
def number (s : State) : State × Nat := ({ s with numbered := s.numbered + 1 }, s.numbered + 1)

/-- Adopt a raw resource in place of what an owner shares now. -/
def replace (s : State) (handle : String) (h : Handle) (content : Option (Content.Of h.ty))
    (terms : Terms) (script : List Command) : State × List Task :=
  let (s, n) := s.number
  let action := .scripted n h.ty script terms.panics
  match s.adoption h.ty content terms.carried action terms.fails with
  | (s, .ok new) => (s.vacate handle, [.drop h, .settle [(handle, new)] (.answer .done)])
  | (s, .error (layout, tasks)) =>
    (s.vacate handle, tasks ++ [.settle [(handle, h)] (.failed layout .abort)])

/-- Turn the handle `h` of a slot into a projected one in slot `target`. A projection that panics
drops the handle. -/
def project (s : State) (handle target : String) (h : Handle) (f : Projection) (ty : Ty) :
    State × List Task :=
  let s' := s.vacate handle
  match s.heap.pointed h f with
  | .ok pointer => (s'.put target { h with ty, pointer }).reply .done
  | .error p => (s', [.drop h, .resume p, .settle [] (.answer .done)])

/-- Project a clone of a handle into slot `target`. -/
def projectClone (s : State) (target : String) (h : Handle) (f : Projection) (ty : Ty) :
    State × List Task :=
  match s.heap.clone h with
  | (heap, .error p) => { s with heap }.reply (.panicked p)
  | (heap, .ok copy) =>
    let s := { s with heap }
    match s.heap.pointed copy f with
    | .ok pointer => (s.put target { copy with ty, pointer }).reply .done
    | .error p => (s, [.drop copy, .resume p, .settle [] (.answer .done)])

/-- What a handle says about itself. -/
def inspection (s : State) (h : Handle) : Inspection :=
  let useCount := s.heap.useCount h
  match h.kind with
  | .strong =>
    { kind := .strong, ty := h.ty, useCount, isNull := some h.pointer.isNone,
      hasPointer := some h.pointer.isSome, expired := none }
  | .weak =>
    { kind := .weak, ty := h.ty, useCount, isNull := none, hasPointer := none,
      expired := some (useCount = 0) }

/-- The text of a handle in a style: that of its value, if it is an owner and has one. -/
def debugText (s : State) (h : Handle) (style : Text.Style) : String :=
  match h.kind with
  | .weak => "(Weak)"
  | .strong => match s.heap.read h with
    | some v => v.debug style
    | none => "(empty)"

/-- Take handles out of their slots, in order, until a slot has none. -/
def takeAll (s : State) : List String → State × List Handle × Option Refusal
  | [] => (s, [], none)
  | name :: names =>
    match s.handle name with
    | .error reason => (s, [], some reason)
    | .ok h =>
      let (s, hs, reason) := (s.vacate name).takeAll names
      (s, h :: hs, reason)

/-- Change the units of a block that no handle holds, and tell the new counter. -/
def setBlock (s : State) (block : Nat) (side : Kind) (reason : Refusal)
    (f : Block → Option Block) : Plan :=
  match s.heap.blocks.get? block with
  | none => .error .noBlock
  | some b =>
    match f b with
    | none => .error reason
    | some b' =>
      .ok ({ s with heap := s.heap.setBlock block b' }.reply
        (.count (b'.counts.get side)))

/-- Whether the guards of a malformed command hold. -/
def check (s : State) : List Guard → Except Refusal Unit
  | [] => .ok ()
  | .vacant slot :: guards => do s.vacant slot; s.check guards
  | .occupied slot :: guards => do let _ ← s.handle slot; s.check guards

/-- What a command does. -/
def plan (s : State) (c : Command) : Plan :=
  match c with
  | .malformed guards reason => do s.check guards; .error reason
  | .create target ty content onFailure fails => do
    s.vacant target
    return s.adoptInto target ty (some content) .none .discard onFailure fails
  | .adopt target ty content onFailure terms script => do
    s.vacant target
    let (s, n) := s.number
    return s.adoptInto target ty content terms.carried (.scripted n ty script terms.panics)
      onFailure terms.fails
  | .empty target kind ty => do
    s.vacant target
    return (s.put target (.empty kind ty)).reply .done
  | .clone handle target => do
    s.vacant target
    let h ← s.handle handle
    return s.deliver target (s.heap.clone h) fun _ => .done
  | .take handle target => do
    s.vacant target
    let h ← s.handle handle
    return ((s.put handle h.emptied).put target h).reply .done
  | .downgrade handle target => do
    s.vacant target
    let h ← s.handle handle
    requireShared h
    return s.deliver target (s.heap.downgrade h) fun _ => .done
  | .lock handle target => do
    s.vacant target
    let h ← s.handle handle
    requireWeak h
    return s.deliver target (s.heap.lock h) fun owner => .locked owner.pointer.isNone
  | .drop handle => do
    let h ← s.handle handle
    return (s.vacate handle, [.drop h, .settle [] (.answer .done)])
  | .dropOnThread handle => do
    let h ← s.handle handle
    return (s.vacate handle, [.spawn [h], .settle [] (.answer .done)])
  | .reset handle => do
    let h ← s.handle handle
    return (s.vacate handle, [.drop h, .settle [(handle, h.emptied)] (.answer .done)])
  | .replace handle value terms script => do
    let h ← s.handle handle
    requireShared h
    let content ← match value with
      | .null => .ok none
      | value => some <$> value.content h.ty
    return s.replace handle h content terms script
  | .swap handle other => do
    let (h, g) ← s.pair handle other
    return ((s.put handle g).put other h).reply .done
  | .assign handle source => do
    let (h, g) ← s.pair handle source
    match s.heap.clone g with
    | (heap, .error p) => return { s with heap }.reply (.panicked p)
    | (heap, .ok new) =>
      let s := ({ s with heap }.vacate handle).vacate source
      return (s, [.drop h, .settle [(source, g), (handle, new)] (.answer .done)])
  | .sameAddress handle other => do
    let h ← s.handle handle
    let g ← s.handle other
    if h.kind = .weak ∨ g.kind = .weak then .error .notComparable
    requireSameType h g
    return s.reply (.flag (h.pointer.map s.heap.address = g.pointer.map s.heap.address))
  | .sameOwner handle other => do
    let h ← s.handle handle
    let g ← s.handle other
    if h.kind ≠ g.kind then .error .notComparable
    requireSameType h g
    return s.reply (.flag (h.block = g.block))
  | .read handle access => do
    let h ← s.handle handle
    requireShared h
    match access, s.heap.read h with
    | .dereference, none => return s.reply (.panicked .emptyDereference)
    | _, v => return s.reply (.value v)
  | .inspect handle => do
    let h ← s.handle handle
    return s.reply (.inspection (s.inspection h))
  | .debug handle style => do
    let h ← s.handle handle
    match style with
    | none => .error .unknownStyle
    | some style => return s.reply (.text (s.debugText h style))
  | .showPointer handle style => do
    let h ← s.handle handle
    requireShared h
    match style with
    | none => .error .unknownStyle
    | some style =>
      return s.reply (.text (if h.pointer.isSome then "as_ptr" else style.integer 64 0))
  | .project handle target f => do
    if target ≠ handle then s.vacant target
    let h ← s.handle handle
    match f.bind fun f => (f.target h.kind h.ty).map (f, ·) with
    | none => .error .noProjection
    | some (f, ty) => return s.project handle target h f ty
  | .projectClone handle target f => do
    s.vacant target
    let h ← s.handle handle
    match f.bind fun f => (f.target h.kind h.ty).map (f, ·) with
    | none => .error .noProjection
    | some (f, ty) => return s.projectClone target h f ty
  | .link handle child => do
    let g ← s.handle child
    let h ← (s.vacate child).handle handle
    let node ← nodeOf h
    let heap := s.heap.modifyResource node fun r => { r with links := r.links ++ [g] }
    return ({ s with heap }.vacate child).reply .done
  | .unlink handle target index => do
    s.vacant target
    let h ← s.handle handle
    let node ← nodeOf h
    match (s.heap.resources.get? node).bind fun r => r.links[index]? with
    | none => .error .noLink
    | some g =>
      let heap := s.heap.modifyResource node fun r => { r with links := r.links.eraseIdx index }
      return ({ s with heap }.put target g).reply .done
  | .churn handle threads rounds => do
    let h ← s.handle handle
    let (heap, total) := s.heap.churn h rounds threads
    let answer := match total with
      | .ok n => .count n
      | .error p => .panicked p
    return { s with heap }.reply answer
  | .raceDrop handles =>
    match s.takeAll handles with
    | (s, hs, none) => return (s, [.spawn hs, .settle [] (.answer .done)])
    | (s, hs, some reason) =>
      return (s, hs.map .drop ++ [.settle [] (.answer (.refused reason))])
  | .raceLock handle observer => do
    let h ← s.handle handle
    requireShared h
    let s := s.vacate handle
    match s.handle observer with
    | .error reason => return (s, [.drop h, .settle [] (.answer (.refused reason))])
    | .ok w =>
      let s := s.vacate observer
      match requireWeak w with
      | .error reason => return (s, [.drop h, .settle [(observer, w)] (.answer (.refused reason))])
      | .ok () => return (s, [.spawn [h], .settle [(observer, w)] .observed])
  | .leak block side n => s.setBlock block side .cannotLeak fun b => b.lend side n
  | .unleak block side n => s.setBlock block side .notLeaked fun b => b.takeBack side n
  | .slots => return s.reply (.slots s.slots.names)

/-- A command's state and tasks; a refusal is an answer like any other. -/
def begin (s : State) (c : Command) : State × List Task :=
  match s.plan c with
  | .ok next => next
  | .error reason => s.reply (.refused reason)

end State

end SharedOwnership
