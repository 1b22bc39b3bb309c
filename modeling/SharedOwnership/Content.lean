/-!
# Contents of resources

What a resource is made of, apart from the handles it may hold, and the type under which a handle
sees it. A resource of one of the sized types may be seen as an `object`, which hides its type.

## Main definitions

* `Ty` — the types of handles.
* `Record` — a resource with fields that can be shared one by one.
* `Content` — the data of a resource.
* `Content.Of` — data that may be adopted under a type.
-/

namespace SharedOwnership

/-- The type under which a handle sees its resource. -/
inductive Ty
  /-- A 64-bit integer. -/
  | int
  /-- The type with a single value, which occupies no memory. -/
  | unit
  /-- A record of integers. -/
  | record
  /-- A value that holds handles. -/
  | node
  /-- Text of any length. -/
  | text
  /-- Integers, any number of them. -/
  | list
  /-- Any of `int`, `unit`, `record` and `node`, its type hidden. -/
  | object
  deriving DecidableEq, Repr

/-- The name of a type. -/
def Ty.name : Ty → String
  | .int => "int"
  | .unit => "unit"
  | .record => "rec"
  | .node => "node"
  | .text => "str"
  | .list => "list"
  | .object => "dyn"

/-- The type of a name. -/
def Ty.ofName? : String → Option Ty
  | "int" => some .int
  | "unit" => some .unit
  | "rec" => some .record
  | "node" => some .node
  | "str" => some .text
  | "list" => some .list
  | "dyn" => some .object
  | _ => none

/-- Whether values of the type have one size, known from the type alone. -/
def Ty.isSized : Ty → Bool
  | .int | .unit | .record | .node => true
  | .text | .list | .object => false

/-- Bytes in a pointer to the type: an unsized type adds a length or a table of operations. -/
def Ty.pointerSize (ty : Ty) : Nat := if ty.isSized then 8 else 16

/-- A record: an integer, a row of four, a second integer and a narrow one, in this order. -/
structure Record where
  x : Int64 := 0
  xs : Vector Int64 4 := Vector.replicate 4 0
  p : Int64 := 0
  y : Int32 := 0
  deriving DecidableEq, Repr

/-- The data of a resource, apart from the handles a node holds. -/
inductive Content
  | int (v : Int64)
  | unit
  | record (r : Record)
  | node (v : Int64)
  | text (s : String)
  | list (xs : List Int64)
  deriving DecidableEq, Repr

/-- The type of the data itself. -/
def Content.ty : Content → Ty
  | .int _ => .int
  | .unit => .unit
  | .record _ => .record
  | .node _ => .node
  | .text _ => .text
  | .list _ => .list

/-- Whether data may be adopted under a type: its own, or `object` if it is sized. -/
def Content.fits (c : Content) (ty : Ty) : Bool :=
  c.ty = ty || (ty = .object && c.ty.isSized)

/-- Data that may be adopted under a type. -/
abbrev Content.Of (ty : Ty) := { c : Content // c.fits ty }

/-- Whether data fit a type, in words. -/
theorem Content.fits_iff {c : Content} {ty : Ty} :
    c.fits ty ↔ c.ty = ty ∨ (ty = .object ∧ c.ty.isSized) := by
  simp [fits]

/-- Sized data with its type hidden. -/
def Content.Of.hide {ty : Ty} (c : Content.Of ty) (h : ty.isSized) : Content.Of .object :=
  ⟨c.1, by
    rcases Content.fits_iff.1 c.2 with hty | ⟨rfl, _⟩
    · exact Content.fits_iff.2 (.inr ⟨rfl, hty.symm ▸ h⟩)
    · cases h⟩

end SharedOwnership
