import SharedOwnership.Handle
import SharedOwnership.Text.Bytes
import SharedOwnership.Text.Padded

/-!
# Values seen through handles

Reading a part of a resource at a type gives a value. At type `object` the value keeps its data but
shows only a summary of it.

## Main definitions

* `Value` — what a handle gives to read.
* `Resource.read` — the value of a part of a resource.
* `Value.summary` — what an object shows of itself.
* `Value.debug` — the text of a value in a style.
-/

namespace SharedOwnership

/-- What a handle gives to read. -/
inductive Value
  | int (v : Int64)
  | unit
  | record (r : Record)
  /-- The value of a node and the number of handles it holds. -/
  | node (v : Int64) (links : Nat)
  | text (s : String)
  | list (xs : List Int64)
  /-- A value whose type is hidden. -/
  | object (v : Value)
  deriving DecidableEq, Repr

/-- The integers of a row of a resource. -/
def Content.row : Content → Row → Option (List Int64)
  | .list xs, .own => some xs
  | .record r, .field => some r.xs.toList
  | _, _ => none

/-- All of a resource, as a value of its own type. -/
def Resource.value (r : Resource) : Value :=
  match r.content with
  | .int v => .int v
  | .unit => .unit
  | .record x => .record x
  | .node v => .node v r.links.length
  | .text s => .text s
  | .list xs => .list xs

/-- The value of a part, if the resource has such a part. -/
def Resource.part (r : Resource) : Part → Option Value
  | .whole => some r.value
  | .x => match r.content with
    | .record x => some (.int x.x)
    | _ => none
  | .p => match r.content with
    | .record x => some (.int x.p)
    | _ => none
  | .value => match r.content with
    | .node v => some (.int v)
    | _ => none
  | .slice row start stop => (r.content.row row).map fun xs => .list ((xs.take stop).drop start)
  | .item row index => (r.content.row row).bind fun xs => xs[index]?.map .int
  | .bytes start stop => match r.content with
    | .text s => (Text.byteSlice s start stop).map .text
    | _ => none

/-- A value as a handle of type `ty` sees it. -/
def Value.under (v : Value) (ty : Ty) : Value := if ty = .object then .object v else v

/-- The value of a part of a resource, seen at type `ty`. -/
def Resource.read (r : Resource) (ty : Ty) (part : Part) : Option Value :=
  (r.part part).map (·.under ty)

/-- What an object shows of itself. -/
def Value.summary : Value → String
  | .int v => "int:" ++ toString v.toInt
  | .unit => "unit"
  | .record r => "rec:" ++ toString r.x.toInt
  | .node v _ => "node:" ++ toString v.toInt
  | .text s => s
  | .list xs => ",".intercalate (xs.map fun v => toString v.toInt)
  | .object v => v.summary

/-- A list of integers in a style. -/
def debugList (style : Text.Style) (xs : List Int64) : String :=
  style.between "[" "]" "" (xs.map fun v => style.integer 64 v.toInt)

/-- The text of a value in a style. A style reaches the integers inside a compound value; a node and
a text have one form only. -/
def Value.debug (style : Text.Style) : Value → String
  | .int v => style.integer 64 v.toInt
  | .unit => style.text "()"
  | .record r =>
    style.between "Rec \x7b" "\x7d" " "
      ["x: " ++ style.integer 64 r.x.toInt, "xs: " ++ debugList style r.xs.toList,
        "p: " ++ style.integer 64 r.p.toInt, "y: " ++ style.integer 32 r.y.toInt]
  | .node v _ => "Node(" ++ toString v.toInt ++ ")"
  | .text s => Text.quote s
  | .list xs => debugList style xs
  | .object v => v.debug style

end SharedOwnership
