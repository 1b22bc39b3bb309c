/-!
# Cutting text at byte positions

Texts are measured in bytes of their UTF-8 form. A cut is possible only where a character ends.

## Main definitions

* `takeBytes`, `dropBytes` — the characters before and after a cut.
* `byteSlice` — the text between two cuts.
-/

namespace SharedOwnership.Text

/-- The characters that make up the first `n` bytes, if one of them ends there. -/
def takeBytes : List Char → Nat → Option (List Char)
  | _, 0 => some []
  | [], _ + 1 => none
  | c :: cs, n + 1 =>
    if c.utf8Size ≤ n + 1 then (takeBytes cs (n + 1 - c.utf8Size)).map (c :: ·) else none

/-- The characters after the first `n` bytes, if a character ends there. -/
def dropBytes : List Char → Nat → Option (List Char)
  | cs, 0 => some cs
  | [], _ + 1 => none
  | c :: cs, n + 1 => if c.utf8Size ≤ n + 1 then dropBytes cs (n + 1 - c.utf8Size) else none

/-- The text of the bytes `start`, …, `stop - 1`, if both bounds are cuts in this order. -/
def byteSlice (s : String) (start stop : Nat) : Option String :=
  if start ≤ stop then
    (dropBytes s.toList start).bind fun rest =>
      (takeBytes rest (stop - start)).map String.ofList
  else none

end SharedOwnership.Text
