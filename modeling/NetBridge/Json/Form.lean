import NetBridge.Arena
import NetBridge.Shape
import NetBridge.Json.Printer
import NetBridge.Json.Reader

/-! # JSON forms

A form says how values of a type are written as JSON and which JSON is read as
such a value. Records are objects with a name for each field; they are also read
from an array of the field values in order. Names that a record does not have
are skipped. Reading counts the containers it is inside of. -/
namespace NetBridge

/-- `read depth` may enter `depth` containers, one inside the other. -/
structure Form (α : Type) where
  write : α → Json
  read : Nat → Json → Option α

namespace Form

variable {α β : Type}

/-- The number of containers that may stand inside one another. -/
def maxDepth : Nat := 127

def print (form : Form α) (a : α) : String := (form.write a).print

def parse? (form : Form α) (s : String) : Option α := do form.read maxDepth (← Json.read? s)

def bool : Form Bool where
  write := .bool
  read _
    | .bool b => some b
    | _ => none

def text : Form String where
  write := .text
  read _
    | .text s => some s
    | _ => none

/-- Numbers of at most `bits` bits. -/
def natBits (bits : Nat) : Form Nat where
  write := .nat
  read _
    | .nat n => if n < Nat.pow 2 bits then some n else none
    | _ => none

def word : Form Word where
  write w := .nat w.toNat
  read _
    | .nat n => if n < Nat.pow 2 64 then some (BitVec.ofNat 64 n) else none
    | _ => none

def key : Form (Key α) where
  write k := .nat k.index
  read depth j := ((natBits 32).read depth j).map Key.mk

/-- One of finitely many values, by name. -/
def choice (ofText? : String → Option α) (name : α → String) : Form α where
  write a := .text (name a)
  read depth
    | .text s => ofText? s
    | .object [(s, .null)] => if depth = 0 then none else ofText? s
    | _ => none

def optional (form : Form α) : Form (Option α) where
  write
    | none => .null
    | some a => form.write a
  read depth
    | .null => some none
    | j => (form.read depth j).map some

def list (form : Form α) : Form (List α) where
  write items := .array (items.map form.write)
  read
    | depth + 1, .array items => items.mapM (form.read depth)
    | _, _ => none

/-- An object in the order of the table. A repeated name keeps its first
position and its last value. -/
def table (form : Form α) : Form (Table String α) where
  write t := .object (t.map fun p => (p.1, form.write p.2))
  read
    | depth + 1, .object entries => do
      let pairs ← entries.mapM fun p => (form.read depth p.2).map (p.1, ·)
      return Table.ofPairs pairs
    | _, _ => none

/-- The values under a name. -/
def valuesOf (entries : List (String × Json)) (name : String) : List Json :=
  (entries.filter (·.1 == name)).map Prod.snd

/-- The values of the fields of a record, in the order of `names`, each of them
given at most once. -/
def fields? (names : List String) : Json → Option (List (Option Json))
  | .object entries => names.mapM fun name =>
    match valuesOf entries name with
    | [] => some none
    | [j] => some (some j)
    | _ => none
  | .array items => if items.length = names.length then some (items.map some) else none
  | _ => none

/-- Enters a record; the remaining depth goes to its fields. -/
def record? (names : List String) : Nat → Json → Option (Nat × List (Option Json))
  | depth + 1, j => (fields? names j).map (depth, ·)
  | 0, _ => none

/-- A field that must be given. -/
def need (form : Form α) (depth : Nat) (field : Option Json) : Option α := do
  form.read depth (← field)

/-- A field that may be left out, which is as good as `null`. -/
def allow (form : Form α) (depth : Nat) : Option Json → Option (Option α)
  | none => some none
  | some j => form.optional.read depth j

/-- A variant that carries a value is an object with the name of the variant. -/
def variant? : Nat → Json → Option (Nat × String × Json)
  | depth + 1, .object [(name, payload)] => some (depth, name, payload)
  | _, _ => none

def shape : Form Shape where
  write s := .object [("width", .nat s.width), ("signed", .bool s.signed)]
  read depth j := do
    let (depth, [width, signed]) ← record? ["width", "signed"] depth j | none
    return ⟨← need (natBits 32) depth width, ← need bool depth signed⟩

def arena (form : Form α) : Form (Arena α) where
  write a := .object [("items", form.list.write a.toList)]
  read depth j := do
    let (depth, [items]) ← record? ["items"] depth j | none
    return ⟨(← need form.list depth items).toArray⟩

end Form

end NetBridge
