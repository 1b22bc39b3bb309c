import SharedOwnership.Content

/-!
# Pointers into resources

A pointer names a region of memory and a part of it. Parts of lists and texts carry their bounds,
so a pointer can be narrowed without looking at the memory behind it.

## Main definitions

* `Pointer` — a part of a region.
* `Pointer.whole` — the pointer to a whole resource.
* `Address` — where a part begins; two pointers may have one address.
-/

namespace SharedOwnership

/-- What a pointer points into: a resource, or the one integer constant that is always there. -/
inductive Region
  | resource (l : Nat)
  | constant
  deriving DecidableEq, Repr

/-- A row of integers: a resource of type `list`, or the row inside a record. -/
inductive Row
  | own
  | field
  deriving DecidableEq, Repr

/-- A part of a region. Bounds count from the beginning of the row or of the text. -/
inductive Part
  /-- All of a sized resource. -/
  | whole
  /-- The first integer of a record. -/
  | x
  /-- The second integer of a record. -/
  | p
  /-- The value of a node. -/
  | value
  /-- The integers `start`, …, `stop - 1` of a row. -/
  | slice (row : Row) (start stop : Nat)
  /-- The integer at `index` of a row. -/
  | item (row : Row) (index : Nat)
  /-- The bytes `start`, …, `stop - 1` of a text. -/
  | bytes (start stop : Nat)
  deriving DecidableEq, Repr

/-- A pointer to a part of a region. -/
structure Pointer where
  region : Region
  part : Part
  deriving DecidableEq, Repr

/-- The value of the constant that projections may point at. -/
def constantValue : Int64 := 777

/-- The part that is all of a resource. -/
def Content.extent : Content → Part
  | .text s => .bytes 0 s.utf8ByteSize
  | .list xs => .slice .own 0 xs.length
  | _ => .whole

/-- The pointer to all of the resource labelled `l`. -/
def Pointer.whole (l : Nat) (c : Content) : Pointer := ⟨.resource l, c.extent⟩

/-- Where parts are counted from. Resources without a byte of their own share one base per kind. -/
inductive Base
  | resource (l : Nat)
  | constant
  | unit
  | emptyText
  | emptyList
  deriving DecidableEq, Repr

/-- A base and a number of bytes from it. -/
structure Address where
  base : Base
  offset : Nat
  deriving DecidableEq, Repr

/-- Bytes before the first integer of a row. -/
def Row.offset : Row → Nat
  | .own => 0
  | .field => 8

/-- Bytes before a part. -/
def Part.offset : Part → Nat
  | .whole | .x | .value => 0
  | .p => 40
  | .slice row start _ => row.offset + 8 * start
  | .item row index => row.offset + 8 * index
  | .bytes start _ => start

/-- The base of the resource labelled `l` with the given data. -/
def Content.base (c : Content) (l : Nat) : Base :=
  match c with
  | .unit => .unit
  | .text s => if s.isEmpty then .emptyText else .resource l
  | .list xs => if xs.isEmpty then .emptyList else .resource l
  | _ => .resource l

end SharedOwnership
