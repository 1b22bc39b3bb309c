import SharedOwnership.Command

/-!
# Reading commands

A command is written as a record: the field `op` names it, the other fields are its operands. Fields
are read one after the other; some conditions on slots come before later fields, so a command with
a malformed field remembers the guards that were met before it.

## Main definitions

* `Decoding` — reading the fields of a command.
* `Command.ofDatum` — the command that a datum writes.
* `Command.scriptOfDatum?` — the script that a datum writes.
-/

namespace SharedOwnership

/-- Reading the fields of a command: the guards so far, and the malformed command on failure. -/
abbrev Decoding := StateT (List Guard) (Except Command)

namespace Decoding

/-- Give up at a field. -/
def refuse {α : Type} (reason : Refusal) : Decoding α := fun guards =>
  .error (.malformed guards reason)

/-- Look at a condition on slots before any field that is read later. -/
def guard (g : Guard) : Decoding Unit := modify (· ++ [g])

/-- A value, or give up. -/
def orRefuse {α : Type} (reason : Refusal) : Option α → Decoding α
  | some a => pure a
  | none => refuse reason

/-- A text field. -/
def text (d : Datum) (field : String) : Decoding String :=
  orRefuse (.notText field) (d.get field).text?

/-- A natural number field. -/
def natural (d : Datum) (field : String) : Decoding Nat :=
  orRefuse (.notNatural field) (d.get field).natural?

/-- A natural number field, zero where it is missing. -/
def naturalOrZero (d : Datum) (field : String) : Decoding Nat :=
  match d.get field with
  | .null => pure 0
  | n => orRefuse (.notNatural field) n.natural?

/-- The slot for a new handle; it must be vacant. -/
def target (d : Datum) : Decoding String := do
  let slot ← text d "to"
  guard (.vacant slot)
  return slot

/-- The data of a resource. -/
def content (d : Datum) (ty : Ty) : Decoding (Content.Of ty) :=
  match d.content ty with
  | .ok c => pure c
  | .error reason => refuse reason

end Decoding

/-- What a release action carries besides the 8 bytes of its own number, by the name of the pad. -/
def padOfName : String → Layout
  | "1" => ⟨1, 8⟩
  | "3" => ⟨3, 8⟩
  | "8" => ⟨8, 8⟩
  | "24" => ⟨24, 8⟩
  | "100" => ⟨100, 8⟩
  | "4096" => ⟨4096, 8⟩
  | "a16" => ⟨16, 16⟩
  | "a64" => ⟨64, 64⟩
  | _ => ⟨0, 8⟩

/-- What a release action carries: its number, then the pad. -/
def carriedWith (pad : Layout) : Layout := ⟨roundUp (8 + pad.size) pad.align, pad.align⟩

/-- The terms of a raw adoption. -/
def Terms.ofDatum (d : Datum) : Terms where
  carried := carriedWith (padOfName ((d.get "pad").text?.getD "0"))
  panics := (d.get "panic").isTrue
  fails := (d.get "fail").isTrue

/-- What becomes of a failed allocation when data of a type are adopted by a named route. The routes
that box a value themselves are for sized types. -/
def createRoute (sized : Bool) : String → Option OnFailure
  | "new" | "from" => if sized then some .abort else none
  | "try_new" => if sized then some .report else none
  | "from_box" | "box_into" => some .abort
  | "try_from_box" => some .report
  | _ => none

/-- What becomes of a failed allocation when a raw resource is adopted by a named route. -/
def adoptRoute : String → Option OnFailure
  | "from_raw" => some .abort
  | "try_from_raw" => some .report
  | _ => none

namespace Command

open Decoding

/-- The adoption of data. -/
def decodeCreate (d : Datum) : Decoding Command := do
  let slot ← target d
  let ty? := Ty.ofName? (← text d "ty")
  let sized := ty?.any Ty.isSized
  let route := (d.get "via").text?.getD (if sized then "new" else "from_box")
  let onFailure ← orRefuse .unknownRoute (createRoute sized route)
  let ty ← orRefuse .unknownType ty?
  return .create slot ty (← content (d.get "val") ty) onFailure (d.get "fail").isTrue

/-- The adoption of a raw resource; a missing value stands for no resource. -/
def decodeAdopt (d : Datum) (script : List Command) : Decoding Command := do
  let slot ← target d
  let ty? := Ty.ofName? (← text d "ty")
  let route := (d.get "via").text?.getD "from_raw"
  let onFailure ← orRefuse .unknownRoute (adoptRoute route)
  let ty ← orRefuse .unknownType ty?
  let content ← match d.get "val" with
    | .null => pure none
    | value => some <$> content value ty
  return .adopt slot ty content onFailure (Terms.ofDatum d) script

/-- The command of a name, with its release script if it has one. -/
def decode (name : String) (d : Datum) (script : List Command) : Decoding Command := do
  match name with
  | "new" => decodeCreate d
  | "raw" => decodeAdopt d script
  | "empty" =>
    let slot ← target d
    let ty ← orRefuse .unknownType (Ty.ofName? (← text d "ty"))
    return .empty slot (if (d.get "kind").text? = some "weak" then .weak else .strong) ty
  | "clone" => let slot ← target d; return .clone (← text d "h") slot
  | "take" => let slot ← target d; return .take (← text d "h") slot
  | "downgrade" => let slot ← target d; return .downgrade (← text d "h") slot
  | "lock" => let slot ← target d; return .lock (← text d "h") slot
  | "drop" => return .drop (← text d "h")
  | "thread_drop" => return .dropOnThread (← text d "h")
  | "reset" => return .reset (← text d "h")
  | "reset_with" => return .replace (← text d "h") (d.get "val") (Terms.ofDatum d) script
  | "swap" => return .swap (← text d "h") (← text d "other")
  | "clone_from" => return .assign (← text d "h") (← text d "src")
  | "ptr_eq" => return .sameAddress (← text d "h") (← text d "other")
  | "owner_eq" => return .sameOwner (← text d "h") (← text d "other")
  | "value" =>
    let access := match (d.get "via").text? with
      | some "deref" | some "borrow" | some "as_ref" => Access.dereference
      | _ => .get
    return .read (← text d "h") access
  | "stat" => return .inspect (← text d "h")
  | "debug" => return .debug (← text d "h") (Text.Style.ofName? ((d.get "spec").text?.getD ""))
  | "pointer" =>
    return .showPointer (← text d "h") (Text.Style.ofPointerName? ((d.get "spec").text?.getD ""))
  | "map" =>
    let h ← text d "h"
    let slot ← text d "to"
    return .project h slot (← projection)
  | "map_cloned" =>
    let h ← text d "h"
    let slot ← text d "to"
    return .projectClone h slot (← projection)
  | "link" => return .link (← text d "h") (← text d "child")
  | "unlink" =>
    let slot ← text d "to"
    let index ← natural d "i"
    guard (.vacant slot)
    return .unlink (← text d "h") slot index
  | "churn" =>
    let h ← text d "h"
    guard (.occupied h)
    return .churn h (min (← natural d "threads") 16) (min (← natural d "iters") 2000)
  | "race_drop" =>
    match d.get "hs" with
    | .list names => return .raceDrop (← orRefuse (.notText "hs") (names.mapM Datum.text?))
    | _ => refuse (.notText "hs")
  | "race_lock" => return .raceLock (← text d "h") (← text d "w")
  | "leak" => return .leak (← natural d "block") side (← natural d "n")
  | "unleak" => return .unleak (← natural d "block") side (← natural d "n")
  | "slots" => return .slots
  | _ => refuse .unknownCommand
where
  /-- The projection that the command names. -/
  projection : Decoding (Option Projection) := do
    return Projection.ofName? (← text d "f") (← naturalOrZero d "lo") (← naturalOrZero d "hi")
  /-- The counter that the command names. -/
  side : Kind := if (d.get "side").text? = some "weak" then .weak else .strong

/-- The command that a record writes, or its malformed form. -/
def ofRecord (d : Datum) (script : List Command) : Command :=
  let command : Decoding Command := do decode (← text d "op") d script
  match command.run [] with
  | .ok (c, _) => c
  | .error c => c

mutual

/-- The command that a datum writes. -/
def ofDatum : Datum → Command
  | .record fields => ofRecord (.record fields) (scriptOfFields fields)
  | _ => .malformed [] (.notText "op")

/-- The release script among the fields of a command; empty where there is none. -/
def scriptOfFields : List (String × Datum) → List Command
  | [] => []
  | (name, d) :: rest => if name = "release" then scriptOfDatum d else scriptOfFields rest

/-- The commands that a datum lists; none if it is no list. -/
def scriptOfDatum : Datum → List Command
  | .list ds => scriptOfData ds
  | _ => []

/-- The commands that data write, in order. -/
def scriptOfData : List Datum → List Command
  | [] => []
  | d :: ds => ofDatum d :: scriptOfData ds

end

end Command

end SharedOwnership
