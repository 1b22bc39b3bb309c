import SharedOwnership.Proofs.FailedAllocation
import SharedOwnership.Proofs.Frame.Quiet

/-!
# An operation changes what it names or tears down

An operation may set off a teardown of any depth: it drops the last owner of a block, the release
action carries out commands and drops a resource, and the handles that the resource held are dropped
in turn. Still it changes nothing but what these commands name and these drops give back. All other
handles stay what and where they are, their blocks keep their units, and what the owners among them
share can be read as before, whoever else has owned it. This is so whether the operation returns or
panics.

## Main definitions

* `Machine.Frame` — what an operation leaves alone.

## Main results

* `Machine.frame_of_reachable` — every operation does.
-/

namespace SharedOwnership

namespace Machine

variable {m n k : Machine} {c : Command} {rest : List Task} {x : String} {l r : Nat} {b : Block}
  {y : Resource} {h : Handle}

/-! ### What is left alone -/

theorem get?_slots_of_worksOff (hstack : m.stack = .perform c :: rest) (hn : WorksOff rest m n)
    (hnot : ∀ k c, Visits rest m k → k.Performs c → x ∉ c.names) :
    n.state.slots.get? x = m.state.slots.get? x := by
  obtain ⟨above, hget, -⟩ := hn.keeps_of_perform (Q := fun k above =>
    k.state.slots.get? x = m.state.slots.get? x ∧ ∀ t ∈ above, x ∉ t.puts.map Prod.fst) hstack
    ⟨rfl, by simp [Task.puts]⟩ <| by
    rintro k t above hk hkstack ⟨hget, hputs⟩ new hworks
    obtain ⟨hget', hnew⟩ := hworks.slots hkstack (hputs t List.mem_cons_self)
      fun c => hnot k c hk
    refine ⟨hget'.trans hget, fun t' ht' => ?_⟩
    exact (List.mem_append.1 ht').elim (hnew t') fun hmem => hputs t' (.tail _ hmem)
  exact hget

theorem get?_blocks_of_worksOff (hstack : m.stack = .perform c :: rest) (hn : WorksOff rest m n)
    (hb : m.state.heap.blocks.get? l = some b)
    (hnot : ∀ k, Visits rest m k → ¬ k.Touches l) : n.state.heap.blocks.get? l = some b := by
  obtain ⟨above, hget, -⟩ := hn.keeps_of_perform
    (Q := fun k above => k.state.heap.blocks.get? l = some b ∧ .finish l ∉ above) hstack
    ⟨hb, by simp⟩ <| by
    rintro k t above hk hkstack ⟨hget, hfinish⟩ new hworks
    have hnext : l ≠ k.state.heap.blocks.next := Nat.ne_of_lt (Table.lt_next_of_get? hget)
    obtain ⟨hget', hnew⟩ := hworks.blocks hkstack (fun heq => hfinish (heq ▸ List.mem_cons_self))
      (fun _ _ => hnext) (hnot k hk)
    refine ⟨hget'.trans hget, fun hmem => ?_⟩
    exact (List.mem_append.1 hmem).elim hnew fun hmem => hfinish (.tail _ hmem)
  exact hget

theorem exists_links_of_worksOff (hstack : m.stack = .perform c :: rest) (hn : WorksOff rest m n)
    (hy : m.state.heap.resources.get? r = some y) (hkept : ∀ k, Visits rest m k → ¬ k.Destroys r)
    (hnot : ∀ k c, Visits rest m k → k.Performs c → ¬ c.Unlinks k.state r h) :
    ∃ z, n.state.heap.resources.get? r = some z ∧ y.links.count h ≤ z.links.count h := by
  obtain ⟨above, hlinks⟩ := hn.keeps_of_perform
    (Q := fun k _ => ∃ z, k.state.heap.resources.get? r = some z ∧
      y.links.count h ≤ z.links.count h) hstack ⟨y, hy, le_rfl⟩ <| by
    rintro k t above hk hkstack ⟨z, hz, hle⟩ new hworks
    obtain ⟨z', hz', -, hlinks⟩ := hworks.resources hkstack hz (hkept k hk)
    refine ⟨z', hz', hle.trans ((hlinks h).resolve_right ?_)⟩
    rintro ⟨c', hperforms, hunlinks⟩
    exact hnot k c' hk hperforms hunlinks
  exact hlinks

theorem get?_resources_of_worksOff (hstack : m.stack = .perform c :: rest)
    (hn : WorksOff rest m n) (hy : m.state.heap.resources.get? r = some y)
    (hkept : ∀ k, Visits rest m k → ¬ k.Destroys r)
    (hnot : ∀ k c, Visits rest m k → k.Performs c → ¬ c.Relinks k.state r) :
    n.state.heap.resources.get? r = some y := by
  obtain ⟨above, hget⟩ := hn.keeps_of_perform
    (Q := fun k _ => k.state.heap.resources.get? r = some y) hstack hy <| by
    rintro k t above hk hkstack hget new hworks
    obtain ⟨z, hz, hsame, -⟩ := hworks.resources hkstack hget (hkept k hk)
    obtain rfl : z = y := by
      refine hsame.resolve_right ?_
      rintro ⟨c', hperforms, hrelinks⟩
      exact hnot k c' hk hperforms hrelinks
    exact hz
  exact hget

/-! ### What the owners that stay share -/

/-- A resource that is there at both ends was not dropped meanwhile. -/
theorem not_destroys_of_exists (hm : m.Reachable) (hn : WorksOff rest m n) (hk : Visits rest m k)
    (hy : m.state.heap.resources.get? r = some y)
    (hend : n.state.heap.resources.get? r ≠ none) : ¬ k.Destroys r := by
  rintro ⟨hcontrol, rest', hkstack⟩
  have hnext : k.step.Reachable := (hm.leads hk.comes.leads).leads (leads_step k)
  have hlater := inherits_of_leads hm (hk.comes.leads.trans (leads_step k))
  have hgone : k.step.state.heap.resources.get? r = none := by
    rw [step_of_running hcontrol hkstack]
    simp only [advance, run, State.destroy]
    split
    · next hnone => exact hnone
    · exact (Table.get?_erase ..).trans (if_pos rfl)
  have hbound : r < k.step.state.heap.resources.next :=
    (Table.lt_next_of_get? hy).trans_le hlater.next_resources
  exact hend (gone_of_leads hnext (hk.leads hn) hbound hgone)

/-- An owner that is there at both ends gives the same to read, unless the handles of the node that
it shares were changed. -/
theorem read_of_worksOff (hm : m.Reachable) (hstack : m.stack = .perform c :: rest)
    (hn : WorksOff rest m n) (hh : h ∈ m.handles) (hh' : h ∈ n.handles) (hk : h.kind = .strong)
    (hnot : ∀ k c r q, Visits rest m k → k.Performs c → h.pointer = some q →
      q.region = .resource r → ¬ c.Relinks k.state r) :
    n.state.heap.read h = m.state.heap.read h := by
  cases hq : h.pointer with
  | none => simp only [Heap.read, hq, Option.bind_none]
  | some q =>
    cases hr : q.region with
    | constant => simp only [Heap.read, hq, Option.bind_some, hr]
    | resource r =>
      have hL : m.ledger.Sound := ReachableBy.sound hm
      have hL' : n.ledger.Sound := ReachableBy.sound (hm.leads hn.leads)
      obtain ⟨y, hy, -⟩ := hL.exists_resource hh hk hq hr
      obtain ⟨z, hz, -⟩ := hL'.exists_resource hh' hk hq hr
      have hend : n.state.heap.resources.get? r ≠ none := by
        rw [show n.state.heap.resources.get? r = some z from hz]
        exact Option.some_ne_none z
      have hsame := get?_resources_of_worksOff hstack hn hy
        (fun k hk' => not_destroys_of_exists hm hn hk' hy hend)
        fun k c hk' hperforms => hnot k c r q hk' hperforms hq hr
      have hy' : m.state.heap.resources.get? r = some y := hy
      simp only [Heap.read, hq, hr, hsame, hy', Option.bind_some]

/-! ### The main result -/

/-- What an operation of the machine `m` leaves alone, until it has come to an end in the machine
`n`. What it works on it does on the way, in commands of release actions and in drops. -/
structure Frame (m : Machine) (c : Command) (rest : List Task) (n : Machine) : Prop where
  /-- A handle in a slot that no command names stays there, with its pointer and its block. -/
  slots : ∀ x, (∀ k c, Visits rest m k → k.Performs c → x ∉ c.names) →
    n.state.slots.get? x = m.state.slots.get? x
  /-- A handle that a node holds stays there, unless the node is dropped or the handle is taken
  out. -/
  links : ∀ r y h, m.state.heap.resources.get? r = some y →
    (∀ k, Visits rest m k → ¬ k.Destroys r) →
    (∀ k c, Visits rest m k → k.Performs c → ¬ c.Unlinks k.state r h) →
    ∃ z, n.state.heap.resources.get? r = some z ∧ y.links.count h ≤ z.links.count h
  /-- Handles that other operations work on wait for them. -/
  waiting : rest <:+ n.stack
  /-- An owner that stays gives the same to read, whoever else has gone, unless handles are linked
  to the node that it shares or taken out of it. -/
  values : ∀ h, h ∈ m.handles → h ∈ n.handles → h.kind = .strong →
    (∀ k c r q, Visits rest m k → k.Performs c → h.pointer = some q → q.region = .resource r →
      ¬ c.Relinks k.state r) →
    n.state.heap.read h = m.state.heap.read h
  /-- A block stays allocated, with its counters, if no handle of it is worked on or dropped. -/
  blocks : ∀ l b, m.state.heap.blocks.get? l = some b → (∀ k, Visits rest m k → ¬ k.Touches l) →
    n.state.heap.blocks.get? l = some b
  /-- If no release action is entered, only the blocks of the operands change, and a new one; and no
  counter changes by more than one unit, if the command is one operation. -/
  quiet : (∀ k, Visits rest m k → ¬ k.Enters) → Quiet c m.state n.state

/-- Every operation comes to an end, and it leaves alone what neither it nor a teardown that it sets
off works on. -/
theorem frame_of_reachable (hm : m.Reachable) (hcontrol : m.control = .running)
    (hstack : m.stack = .perform c :: rest) :
    (∃ n, WorksOff rest m n) ∧ ∀ n, WorksOff rest m n → m.Frame c rest n := by
  have hstack' : m.stack = [.perform c] ++ rest := hstack
  refine ⟨exists_worksOff hstack', ?_⟩
  intro n hn
  constructor
  case slots => exact fun x hnot => get?_slots_of_worksOff hstack hn hnot
  case links => exact fun r y h hy hkept hnot => exists_links_of_worksOff hstack hn hy hkept hnot
  case waiting =>
    obtain ⟨above, habove⟩ := hn.exists_stack_eq
    exact ⟨above, habove.symm⟩
  case values => exact fun h hh hh' hk hnot => read_of_worksOff hm hstack hn hh hh' hk hnot
  case blocks => exact fun l b hb hnot => get?_blocks_of_worksOff hstack hn hb hnot
  case quiet => exact fun hquiet => quiet_of_worksOff hm hcontrol hstack hquiet hn

/-- A part of a record has an owner of its own. The release action of a chief drops a helper and the
owner that the part was made from, and then it panics. -/
def staffed : Machine :=
  performAll {}
    [.create "origin" .record ⟨.record { x := 21 }, rfl⟩ .abort false,
      .projectClone "origin" "part" (some .x),
      .create "helper" .int ⟨.int 22, rfl⟩ .abort false,
      .create "bystander" .int ⟨.int 23, rfl⟩ .abort false,
      .adopt "chief" .int (some ⟨.int 24, rfl⟩) .abort ⟨.none, true, false⟩
        [.drop "helper", .drop "origin"]]

/-- The chief is to go. -/
def parting : Machine := { staffed with stack := [.perform (.drop "chief")] }

/-- The part is to have one more owner. -/
def copying : Machine := { staffed with stack := [.perform (.clone "part" "copy")] }

theorem halted_parting : (parting.steps 17).halted := rfl

theorem halted_copying : (copying.steps 2).halted := rfl

/-- Every command on the way drops a handle in another slot. -/
theorem performs_parting (hk : Visits [] parting k) (hc : k.Performs c) :
    ∃ name, c = .drop name ∧ name ≠ "part" ∧ name ≠ "bystander" := by
  have hdrops : ∀ i < 17, ((parting.steps i).stack.take 1).all (fun t => match t with
      | .perform (.drop name) => name ≠ "part" ∧ name ≠ "bystander"
      | .perform _ => false
      | _ => true) := by
    decide +kernel
  obtain ⟨i, hi, rfl⟩ := hk.exists_lt halted_parting
  obtain ⟨-, rest, hstack⟩ := hc
  have hdrop := hdrops i hi
  rw [hstack] at hdrop
  cases c with
  | drop name => exact ⟨name, rfl, by simpa using hdrop⟩
  | _ => cases hdrop

theorem not_enters_copying (hk : Visits [] copying k) : ¬ k.Enters := by
  obtain ⟨i, hi, rfl⟩ := hk.exists_lt halted_copying
  have hactions : ∀ i < 2, ∀ b ∈ (copying.steps i).step.state.heap.blocks.values,
      b.action.isSome := by
    decide
  have hcalm : ∀ t ∈ (copying.steps 1).stack, t.isCalm := by decide
  rintro (⟨l, b, b', -, -, hb', hnone⟩ | ⟨c, a, onFailure, puts, ⟨-, rest, hstack⟩, hfails⟩)
  · have hsome := hactions i hi b' (Table.mem_values.2 ⟨l, hb'⟩)
    rw [hnone] at hsome
    cases hsome
  · obtain rfl | rfl : i = 0 ∨ i = 1 := by omega
    · have hfirst : [Task.perform (.clone "part" "copy")] = .perform c :: rest := hstack
      obtain rfl : Command.clone "part" "copy" = c := Task.perform.inj (List.cons.inj hfirst).1
      cases hfails
    · have hperform := hcalm (.perform c) (hstack ▸ List.mem_cons_self)
      cases hperform

/-- The helper and the origin go with the chief. The part stays where it is and what it is, and it
gives the same to read, and so does the bystander. A clone of the part enters no release action. -/
theorem frame_parting : parting.Reachable ∧ copying.Reachable ∧
    (∃ n, WorksOff [] parting n ∧ parting.Frame (.drop "chief") [] n ∧
      n.state.answer = .panicked .release ∧ n.state.slots.names = ["bystander", "part"] ∧
      n.state.heap.counters = [(1, ⟨1, 1⟩), (3, ⟨1, 1⟩), (4, ⟨0, 1⟩)] ∧
      ∀ name ∈ ["part", "bystander"], ∃ h, parting.state.slots.get? name = some h ∧
        n.state.slots.get? name = some h ∧ n.state.heap.read h = parting.state.heap.read h) ∧
    ∃ n, WorksOff [] copying n ∧ Quiet (.clone "part" "copy") copying.state n.state ∧
      n.state.heap.counters = [(1, ⟨3, 1⟩), (2, ⟨1, 1⟩), (3, ⟨1, 1⟩), (4, ⟨1, 1⟩)] := by
  have hall : ∀ script, Command.AllIn (fun _ => True) script :=
    Command.allIn_of_forall fun _ => trivial
  have hstaffed : staffed.Reachable := reachableBy_performAll .refl (hall _)
  have hparting : parting.Reachable :=
    hstaffed.leads (.single (.command (.drop "chief") trivial rfl rfl))
  have hcopying : copying.Reachable :=
    hstaffed.leads (.single (.command (.clone "part" "copy") trivial rfl rfl))
  have hparted : WorksOff [] parting (parting.steps 17) := worksOff_steps halted_parting
  have hcopied : WorksOff [] copying (copying.steps 2) := worksOff_steps halted_copying
  have hframe := (frame_of_reachable hparting rfl rfl).2 _ hparted
  have hframe' := (frame_of_reachable hcopying rfl rfl).2 _ hcopied
  have hstays : ∀ name ∈ ["part", "bystander"], ∃ h, parting.state.slots.get? name = some h ∧
      (parting.steps 17).state.slots.get? name = some h ∧
      (parting.steps 17).state.heap.read h = parting.state.heap.read h := by
    intro name hname
    have hheld : ∃ h, parting.state.slots.get? name = some h ∧ h.kind = .strong := by
      simp only [List.mem_cons, List.not_mem_nil, or_false] at hname
      rcases hname with rfl | rfl <;> exact ⟨_, rfl, rfl⟩
    obtain ⟨h, hg, hk⟩ := hheld
    have hg' : (parting.steps 17).state.slots.get? name = some h := by
      rw [hframe.slots name ?_, hg]
      intro k c hvisits hc
      obtain ⟨other, rfl, hpart, hbystander⟩ := performs_parting hvisits hc
      simp only [List.mem_cons, List.not_mem_nil, or_false] at hname
      simp only [Command.names, List.mem_singleton]
      rcases hname with rfl | rfl
      · exact hpart.symm
      · exact hbystander.symm
    refine ⟨h, hg, hg', hframe.values h (mem_handles_of_slot hg) (mem_handles_of_slot hg') hk ?_⟩
    intro k c r q hvisits hc _ _ hrelinks
    obtain ⟨other, rfl, -⟩ := performs_parting hvisits hc
    rcases hrelinks with ⟨_, _, _, hlink, -⟩ | ⟨_, _, _, _, _, _, hunlink, -⟩
    · cases hlink
    · cases hunlink
  exact ⟨hparting, hcopying, ⟨_, hparted, hframe, rfl, rfl, rfl, hstays⟩,
    _, hcopied, hframe'.quiet fun _ => not_enters_copying, rfl⟩

end Machine

end SharedOwnership
