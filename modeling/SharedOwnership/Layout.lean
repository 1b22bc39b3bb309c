/-!
# Memory layouts

A layout is a size in bytes with an alignment. `Layout.block` places the fields of a control block
one after the other: a header of 24 bytes, the resource pointer, and what the release action
carries.

## Main definitions

* `roundUp` — the least multiple of an alignment that is large enough.
* `Layout.block` — the layout of a control block.
-/

namespace SharedOwnership

/-- A size in bytes and an alignment. -/
structure Layout where
  size : Nat
  align : Nat
  deriving DecidableEq, Repr

/-- The least multiple of `unit` that is at least `n`. -/
def roundUp (n unit : Nat) : Nat := (n + unit - 1) / unit * unit

namespace Layout

/-- The two counters and the teardown entry that open every control block. -/
def header : Layout := ⟨24, 8⟩

/-- What a release action carries when it only gives the resource back: nothing. -/
def none : Layout := ⟨0, 1⟩

/-- A control block: the header, a pointer of `pointerSize` bytes, then the release action's data
at its own alignment, the whole rounded up to the larger alignment. -/
def block (pointerSize : Nat) (action : Layout) : Layout :=
  let align := max header.align action.align
  ⟨roundUp (roundUp (header.size + pointerSize) action.align + action.size) align, align⟩

end Layout

end SharedOwnership
