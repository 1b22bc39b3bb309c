import SharedOwnership.Text.Quoted

/-!
# Padded text and integers

A style says how a value is laid out: a least width with a fill and a side, signs, radix, and
whether the parts of a compound value stand on lines of their own.

## Main definitions

* `Style` — how a value is laid out.
* `Style.ofName?` — the styles that can be named.
* `Style.text`, `Style.integer` — a text and an integer laid out in a style.
-/

namespace SharedOwnership.Text

/-- Where a value narrower than its field stands. -/
inductive Side
  | left
  | center
  | right
  deriving DecidableEq, Repr

/-- How a value is laid out. -/
structure Style where
  /-- What fills a field around its value. -/
  fill : Char := ' '
  /-- Where the value stands; each kind of value has its own default. -/
  side : Option Side := none
  /-- Whether positive integers carry a sign. -/
  plus : Bool := false
  /-- Radix marks on integers, and lines for the parts of compound values. -/
  alternate : Bool := false
  /-- Whether zeros after the sign fill the field of an integer. -/
  zeros : Bool := false
  /-- The least number of characters. -/
  width : Nat := 0
  /-- The most characters of a text. -/
  precision : Option Nat := none
  /-- Whether integers are written in base 16, as two's complement. -/
  hex : Bool := false
  deriving DecidableEq, Repr

/-- The styles that can be named. -/
def Style.ofName? : String → Option Style
  | "" => some {}
  | "#" => some { alternate := true }
  | "8" => some { width := 8 }
  | "<8" => some { width := 8, side := some .left }
  | "^9" => some { width := 9, side := some .center }
  | "*>12" => some { width := 12, side := some .right, fill := '*' }
  | "08" => some { width := 8, zeros := true }
  | "+" => some { plus := true }
  | "x" => some { hex := true }
  | "#x" => some { hex := true, alternate := true }
  | ".3" => some { precision := some 3 }
  | _ => none

/-- The styles that can be named for addresses. The alternate style writes all 16 digits. -/
def Style.ofPointerName? : String → Option Style
  | "" => some { hex := true, alternate := true }
  | "#" => some { hex := true, alternate := true, zeros := true, width := 18 }
  | "24" => some { hex := true, alternate := true, width := 24 }
  | _ => none

/-- A text of `n` copies of a character. -/
def copies (n : Nat) (c : Char) : String := String.ofList (List.replicate n c)

/-- A text filled up to `width` characters; of an odd number of fills the greater half goes to the
right of a centred text. -/
def fillTo (width : Nat) (fill : Char) (side : Side) (s : String) : String :=
  let missing := width - s.length
  match side with
  | .left => s ++ copies missing fill
  | .right => copies missing fill ++ s
  | .center => copies (missing / 2) fill ++ s ++ copies (missing - missing / 2) fill

/-- A text in a style: cut to the precision, and to the left of its field unless told otherwise. -/
def Style.text (style : Style) (s : String) : String :=
  let s := match style.precision with
    | some n => String.ofList (s.toList.take n)
    | none => s
  fillTo style.width style.fill (style.side.getD .left) s

/-- An integer of `bits` bits in a style, to the right of its field unless told otherwise. -/
def Style.integer (style : Style) (bits : Nat) (v : Int) : String :=
  let sign := if v < 0 && !style.hex then "-" else if style.plus then "+" else ""
  let mark := if style.hex && style.alternate then "0x" else ""
  let digits :=
    if style.hex then hexadecimal (v % Int.ofNat (1 <<< bits)).toNat else toString v.natAbs
  let lead := sign ++ mark
  if style.zeros then
    lead ++ copies (style.width - lead.length - digits.length) '0' ++ digits
  else
    fillTo style.width style.fill (style.side.getD .right) (lead ++ digits)

/-- The lines of a text, each after the first behind an indentation. -/
def indent (s : String) : String :=
  String.join (s.toList.map fun c => if c = '\n' then "\n    " else c.toString)

/-- Parts between brackets: on one line with `separator`, or in the alternate style each on lines of
its own with a comma behind it. -/
def Style.between (style : Style) (opening closing space : String) (parts : List String) : String :=
  if parts.isEmpty then opening ++ closing
  else if style.alternate then
    opening ++ "\n" ++ String.join (parts.map fun part => "    " ++ indent part ++ ",\n") ++ closing
  else opening ++ space ++ ", ".intercalate parts ++ space ++ closing

end SharedOwnership.Text
