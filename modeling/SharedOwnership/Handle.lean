import SharedOwnership.Pointer

/-!
# Handles

A handle holds one unit of a control block, strong or weak, and caches a pointer. The two travel
separately: a projected handle points elsewhere and still holds a unit of the same block.

## Main definitions

* `Kind` — what a handle's unit counts for.
* `Handle` — kind, type, cached pointer and control block.
* `Resource` — data together with the handles it holds.
-/

namespace SharedOwnership

/-- What a unit counts for. -/
inductive Kind
  /-- Ownership: the resource stays. -/
  | strong
  /-- Observation: the control block stays. -/
  | weak
  deriving DecidableEq, Repr

/-- A handle. Without a block it holds no unit and is empty. -/
structure Handle where
  kind : Kind
  ty : Ty
  pointer : Option Pointer := none
  block : Option Nat := none
  deriving DecidableEq, Repr

/-- The handle that holds nothing. -/
def Handle.empty (kind : Kind) (ty : Ty) : Handle := { kind, ty }

/-- What the handle becomes when its contents are moved away. -/
def Handle.emptied (h : Handle) : Handle := .empty h.kind h.ty

/-- A resource: its data, and the handles it holds if it is a node. -/
structure Resource where
  content : Content
  links : List Handle := []
  deriving DecidableEq, Repr

end SharedOwnership
