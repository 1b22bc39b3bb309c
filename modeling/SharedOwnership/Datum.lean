import SharedOwnership.Content
import SharedOwnership.Fault

/-!
# Data that commands are written in

A command and the value of a resource are written as a tree of texts, numbers, lists and records.
Integers may also be written as text, so that all 64 bits survive a reader of decimal fractions.

## Main definitions

* `Datum` — a tree.
* `Datum.get` — the field of a record.
* `Datum.natural?`, `Datum.integer` — numbers, written either way.
* `Datum.content` — the data of a resource of a type.
-/

namespace SharedOwnership

/-- A tree of texts, numbers, lists and records. -/
inductive Datum
  | null
  | bool (b : Bool)
  | int (v : Int)
  /-- A number that is not written as an integer. -/
  | fraction
  | text (s : String)
  | list (items : List Datum)
  /-- Fields in ascending order of their names. -/
  | record (fields : List (String × Datum))

/-- The number that decimal digits write. -/
def readDigits (cs : List Char) : Option Nat :=
  if cs.isEmpty || !cs.all Char.isDigit then none
  else some (cs.foldl (fun n c => 10 * n + (c.toNat - '0'.toNat)) 0)

/-- The natural number that a text writes: digits, behind a plus sign or not. -/
def readNatural (s : String) : Option Nat :=
  match s.toList with
  | '+' :: cs => readDigits cs
  | cs => readDigits cs

/-- The integer that a text writes: digits, behind a sign or not. -/
def readInteger (s : String) : Option Int :=
  match s.toList with
  | '-' :: cs => (readDigits cs).map fun n => -(n : Int)
  | _ => (readNatural s).map Int.ofNat

namespace Datum

/-- Put a field into a list of fields in ascending order, in place of one of the same name. -/
def putField (name : String) (d : Datum) : List (String × Datum) → List (String × Datum)
  | [] => [(name, d)]
  | (k, e) :: rest =>
    if name < k then (name, d) :: (k, e) :: rest
    else if name = k then (name, d) :: rest
    else (k, e) :: putField name d rest

/-- The record of some fields; of two fields of one name the later counts. -/
def ofFields (fields : List (String × Datum)) : Datum :=
  .record (fields.foldl (fun acc f => putField f.1 f.2 acc) [])

/-- The field `name` of a record, `null` where there is none. -/
def get (d : Datum) (name : String) : Datum :=
  match d with
  | .record fields => (fields.lookup name).getD .null
  | _ => .null

/-- The text that a datum is. -/
def text? : Datum → Option String
  | .text s => some s
  | _ => none

/-- The natural number below 2^64 that a datum writes. -/
def natural? (d : Datum) : Option Nat :=
  let n? := match d with
    | .int v => if 0 ≤ v then some v.toNat else none
    | .text s => readNatural s
    | _ => none
  n?.filter (· < UInt64.size)

/-- Whether a datum is the truth value `true`. -/
def isTrue : Datum → Bool
  | .bool b => b
  | _ => false

/-- The signed 64-bit integer that a datum writes. -/
def integer (d : Datum) : Except Refusal Int64 :=
  let v? := match d with
    | .int v => some v
    | .text s => readInteger s
    | _ => none
  match v?.filter fun v => Int64.minValue.toInt ≤ v && v ≤ Int64.maxValue.toInt with
  | some v => .ok (Int64.ofInt v)
  | none => .error .notInteger

/-- The integers that a datum lists. -/
def integers : Datum → Except Refusal (List Int64)
  | .list ds => ds.mapM integer
  | _ => .error .notArray

/-- An integer field, zero where there is none. -/
def integerOrZero : Datum → Except Refusal Int64
  | .null => .ok 0
  | d => d.integer

/-- The integers that a datum lists, four of them: zeros stand for those that are missing, and what
comes after the fourth is not looked at. -/
def row : Datum → Except Refusal (Vector Int64 4)
  | .null => .ok (Vector.replicate 4 0)
  | .list ds => do
    let xs ← (ds.take 4).mapM integer
    return Vector.ofFn fun i => xs.getD i 0
  | _ => .error .notArray

/-- A record of integers; what is missing is zero, and the narrow field keeps its low 32 bits. -/
def recordContent (d : Datum) : Except Refusal Record := do
  let x ← (d.get "x").integerOrZero
  let xs ← (d.get "xs").row
  let p ← (d.get "p").integerOrZero
  let y ← (d.get "y").integerOrZero
  return { x, xs, p, y := y.toInt32 }

/-- The data of a resource of a sized type. -/
def sizedContent (d : Datum) : (ty : Ty) → Except Refusal (Content.Of ty)
  | .int => return ⟨.int (← d.integer), rfl⟩
  | .unit => return ⟨.unit, rfl⟩
  | .record => return ⟨.record (← d.recordContent), rfl⟩
  | .node => return ⟨.node (← d.integer), rfl⟩
  | .text | .list | .object => .error .unknownType

/-- The data of a resource to be adopted under a type. An object is written as a record whose first
field names its own type. -/
def content (d : Datum) : (ty : Ty) → Except Refusal (Content.Of ty)
  | .text => match d with
    | .text s => return ⟨.text s, rfl⟩
    | _ => .error .notString
  | .list => return ⟨.list (← d.integers), rfl⟩
  | .object => match d with
    | .record ((name, value) :: _) =>
      match Ty.ofName? name with
      | some ty =>
        if h : ty.isSized then (·.hide h) <$> value.sizedContent ty else .error .unknownType
      | none => .error .unknownType
    | _ => .error .notObject
  | .int => d.sizedContent .int
  | .unit => d.sizedContent .unit
  | .record => d.sizedContent .record
  | .node => d.sizedContent .node

end Datum

end SharedOwnership
