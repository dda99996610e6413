import NetBridge.Board.Board
import NetBridge.Toml.Reader

/-! # Board documents

A board is written as a TOML document with a `bridge` table and a list of
`resource` tables. A table may also be written as an array of its fields in
order. Names that mean nothing here are skipped. -/
namespace NetBridge.Board

open Toml (Value Entries)

/-- The values of the named fields, each of them if it is given. A date has no
such fields. -/
def fields? (names : List String) : Value → Option (List (Option Value))
  | .table _ entries => some (names.map (Table.get? entries))
  | .array items | .elements items => some ((List.range names.length).map (items[·]?))
  | .datetime => some (names.map fun _ => none)
  | _ => none

def text? : Value → Option String
  | .text s => some s
  | _ => none

def flag? : Value → Option Bool
  | .boolean b => some b
  | _ => none

/-- A number that fits 32 bits. -/
def count? : Value → Option Nat
  | .integer n => if 0 ≤ n ∧ n.toNat < Nat.pow 2 32 then some n.toNat else none
  | _ => none

/-- A field that may be left out. -/
def allow {α : Type} (read : Value → Option α) : Option Value → Option (Option α)
  | none => some none
  | some v => (read v).map some

/-- A field of a resource, read down to the given height. -/
def node? : Nat → Option Value → Option Value → Option Value → Option ResourceNode
  | height, width, inverted, fields => do
    let width ← allow count? width
    let inverted ← allow flag? inverted
    match fields with
    | none => return .mk width (inverted.getD false) []
    | some (.table _ entries) =>
      match height with
      | 0 => none
      | height + 1 =>
        let subs ← entries.mapM fun (name, v) => do
          let [width, inverted, fields] ← fields? ["width", "inverted", "fields"] v | none
          return (name, ← node? height width inverted fields)
        return .mk width (inverted.getD false) subs
    | some _ => none

def readResource? (v : Value) : Option Resource := do
  let [name, index, width, inverted, fields] ←
    fields? ["name", "index", "width", "inverted", "fields"] v | none
  return ⟨← text? (← name), ← allow count? index, ← node? (v.height + 1) width inverted fields⟩

def readResources? : Option Value → Option (List Resource)
  | none => some []
  | some (.array items) | some (.elements items) => items.mapM readResource?
  | some _ => none

def ofEntries? (entries : Entries) : Option Board := do
  let [name, outputDir, device] ←
    fields? ["name", "output_dir", "device"] (← Table.get? entries "bridge") | none
  let name ← allow text? name
  let outputDir ← text? (← outputDir)
  let device ← allow text? device
  let resources ← readResources? (Table.get? entries "resource")
  return ⟨name.getD "guest_wrapper", outputDir, device.getD "", resources⟩

/-- The board of a document, checked. -/
def ofText (s : String) : Except BoardError Board := do
  match Toml.parse? s >>= ofEntries? with
  | none => .error .malformed
  | some b => b.check; return b

/-- The board in the bytes of a file, if there is a file. -/
def ofFile : Option ByteArray → Except BoardError Board
  | none => .error .unreadable
  | some bytes =>
    match String.fromUTF8? bytes with
    | none => .error .unreadable
    | some s => ofText s

end NetBridge.Board
