import SharedOwnership.Datum
import SharedOwnership.Handle
import SharedOwnership.Projection

/-!
# Commands

A command acts on handles in named slots. Adopting a raw resource brings a release action with it,
which is a script of commands, so commands nest.

## Main definitions

* `Command` — one command.
* `Guard` — a condition on slots that is looked at before a malformed field is.
* `Route` — how a resource is adopted.
-/

namespace SharedOwnership

/-- A condition on slots. -/
inductive Guard
  | vacant (slot : String)
  | occupied (slot : String)
  deriving DecidableEq, Repr

/-- How an owner is asked for the value behind it. -/
inductive Access
  /-- The value, or nothing for an owner without a resource. -/
  | get
  /-- The value; an owner without a resource panics. -/
  | dereference
  deriving DecidableEq, Repr

/-- What to do when the control block cannot be allocated. -/
inductive OnFailure
  | report
  | abort
  deriving DecidableEq, Repr

/-- What a raw resource is adopted with. -/
structure Terms where
  /-- What the release action carries, besides its entry. -/
  carried : Layout
  /-- Whether the release action panics after its work. -/
  panics : Bool
  /-- Whether the allocation of the control block fails. -/
  fails : Bool
  deriving DecidableEq, Repr

/-- A command. Slots are named by texts. -/
inductive Command
  /-- A command that cannot be read: refused for the first guard that fails, else for `reason`. -/
  | malformed (guards : List Guard) (reason : Refusal)
  /-- Adopt data whose release action is to drop it. -/
  | create (target : String) (ty : Ty) (content : Content.Of ty) (onFailure : OnFailure)
      (fails : Bool)
  /-- Adopt data, or no resource at all, with a release action that runs a script first. -/
  | adopt (target : String) (ty : Ty) (content : Option (Content.Of ty)) (onFailure : OnFailure)
      (terms : Terms) (script : List Command)
  /-- Put an empty handle into a slot. -/
  | empty (target : String) (kind : Kind) (ty : Ty)
  | clone (handle target : String)
  /-- Move the contents of a handle out of it. -/
  | take (handle target : String)
  | downgrade (handle target : String)
  | lock (handle target : String)
  | drop (handle : String)
  /-- Drop a handle on a thread of its own. -/
  | dropOnThread (handle : String)
  /-- Release a handle's share and leave it empty. -/
  | reset (handle : String)
  /-- Adopt a raw resource in place of what an owner shares now. -/
  | replace (handle : String) (value : Datum) (terms : Terms) (script : List Command)
  | swap (handle other : String)
  /-- Share what `source` shares in place of what `handle` shares now. -/
  | assign (handle source : String)
  | sameAddress (handle other : String)
  | sameOwner (handle other : String)
  | read (handle : String) (access : Access)
  | inspect (handle : String)
  | debug (handle : String) (style : Option Text.Style)
  | showPointer (handle : String) (style : Option Text.Style)
  /-- Turn a handle into one that points at a part. -/
  | project (handle target : String) (projection : Option Projection)
  /-- Make a further handle that points at a part. -/
  | projectClone (handle target : String) (projection : Option Projection)
  /-- Move a handle to the end of the links of a node. -/
  | link (handle child : String)
  /-- Move a link of a node into a slot. -/
  | unlink (handle target : String) (index : Nat)
  /-- Clone, convert and drop on several threads, so often on each. -/
  | churn (handle : String) (threads rounds : Nat)
  /-- Drop handles, each on a thread of its own. -/
  | raceDrop (handles : List String)
  /-- Drop an owner on one thread while another one locks an observer. -/
  | raceLock (handle observer : String)
  /-- Add units that no handle holds. -/
  | leak (block : Nat) (side : Kind) (count : Nat)
  /-- Take back units that `leak` added. -/
  | unleak (block : Nat) (side : Kind) (count : Nat)
  | slots

end SharedOwnership
