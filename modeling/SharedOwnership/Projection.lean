import SharedOwnership.Value
import SharedOwnership.Fault

/-!
# Projections

A projection turns a pointer to a resource, or to a part of one, into a pointer to a part of that.
Owners and observers share most projections. Those that have to look at the memory behind the
pointer, or that leave the resource, are for owners only.

## Main definitions

* `Projection` — which part to point at.
* `Projection.target` — the type of that part, if a handle of a kind and type has it.
* `Projection.apply` — the pointer to it.
-/

namespace SharedOwnership

/-- Which part to point at. -/
inductive Projection
  /-- The argument itself. -/
  | self
  /-- No part: the projection panics. -/
  | panic
  /-- The constant that belongs to no resource. -/
  | constant
  /-- The argument with its type hidden. -/
  | object
  /-- The first integer of a record. -/
  | x
  /-- The second integer of a record. -/
  | p
  /-- The first integer of a record, its type hidden. -/
  | xObject
  /-- The row of a record. -/
  | row
  /-- The value of a node. -/
  | value
  /-- A part of a list or a text, between two bounds. -/
  | range (lo hi : Nat)
  /-- One integer of a list. -/
  | item (index : Nat)
  deriving DecidableEq, Repr

namespace Projection

/-- The projection of a name, with its bounds. -/
def ofName? (name : String) (lo hi : Nat) : Option Projection :=
  match name with
  | "self" => some .self
  | "panic" => some .panic
  | "static" => some .constant
  | "dyn" => some .object
  | "x" => some .x
  | "p" => some .p
  | "x_dyn" => some .xObject
  | "xs" => some .row
  | "value" => some .value
  | "range" => some (.range lo hi)
  | "at" => some (.item lo)
  | _ => none

/-- The type of what the projection points at, for a handle of the given kind and type. -/
def target (kind : Kind) (ty : Ty) : Projection → Option Ty
  | .self | .panic => some ty
  | .constant => if kind = .strong then some .int else none
  | .object => if ty.isSized then some .object else none
  | .x | .p => if ty = .record then some .int else none
  | .xObject => if ty = .record then some .object else none
  | .row => if ty = .record then some .list else none
  | .value => if ty = .node then some .int else none
  | .range _ _ =>
    if ty = .list ∨ (ty = .text ∧ kind = .strong) then some ty else none
  | .item _ => if ty = .list then some .int else none

/-- The pointer that the projection makes of a pointer. `text` is the whole text behind the pointer,
which only cuts in a text look at. -/
def apply (f : Projection) (text : String) (q : Pointer) : Except Panic Pointer :=
  match f with
  | .self | .object => .ok q
  | .panic => .error .projection
  | .constant => .ok ⟨.constant, .whole⟩
  | .x | .xObject => .ok { q with part := .x }
  | .p => .ok { q with part := .p }
  | .row => .ok { q with part := .slice .field 0 4 }
  | .value => .ok { q with part := .value }
  | .range lo hi =>
    match q.part with
    | .slice r start stop =>
      if lo ≤ hi ∧ start + hi ≤ stop then
        .ok { q with part := .slice r (start + lo) (start + hi) }
      else .error .projectionRange
    | .bytes start stop =>
      if start + hi ≤ stop ∧ (Text.byteSlice text (start + lo) (start + hi)).isSome then
        .ok { q with part := .bytes (start + lo) (start + hi) }
      else .error .projectionRange
    | _ => .error .projectionRange
  | .item index =>
    match q.part with
    | .slice r start stop =>
      if start + index < stop then .ok { q with part := .item r (start + index) }
      else .error .projectionRange
    | _ => .error .projectionRange

end Projection

end SharedOwnership
