import NetBridge.Json.Form
import NetBridge.Pad.Mode

/-! # JSON forms of the pad vocabulary

A spec is written as the scalar or as an object of specs. What can be read as a
scalar is one. -/
namespace NetBridge

namespace Direction

def form : Form Direction := .choice ofText? text

end Direction

namespace Flow

def ofText? (s : String) : Option Flow := [inward, outward].find? (·.text == s)

def form : Form Flow := .choice ofText? text

end Flow

namespace Role

def form : Form Role := .choice ofText? text

end Role

namespace Spec

variable {α : Type}

mutual

def toJson (scalar : α → Json) : Spec α → Json
  | .leaf value => scalar value
  | .group fields => .object (fieldsToJson scalar fields)

def fieldsToJson (scalar : α → Json) : List (String × Spec α) → List (String × Json)
  | [] => []
  | (name, spec) :: rest => (name, toJson scalar spec) :: fieldsToJson scalar rest

end

def ofJson (scalar : Nat → Json → Option α) : Nat → Json → Option (Spec α)
  | 0, j => (scalar 0 j).map .leaf
  | depth + 1, j =>
    match scalar (depth + 1) j, j with
    | some value, _ => some (.leaf value)
    | none, .object entries => do
      let fields ← entries.mapM fun p => (ofJson scalar depth p.2).map (p.1, ·)
      return .group (Table.ofPairs fields)
    | none, _ => none

def form (scalar : Form α) : Form (Spec α) := ⟨toJson scalar.write, ofJson scalar.read⟩

end Spec

end NetBridge
