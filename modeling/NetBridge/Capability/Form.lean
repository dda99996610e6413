import NetBridge.Capability.Signature
import NetBridge.Pad.Form

/-! # JSON forms of signatures -/
namespace NetBridge

open Form (need record? fields? variant?)

namespace Member

mutual

def toJson : Member → Json
  | port flow shape =>
    .object [("Port", .object [("flow", Flow.form.write flow), ("shape", Form.shape.write shape)])]
  | interface flow members =>
    .object [("Interface", .object [("flow", Flow.form.write flow),
      ("signature", .object [("members", .object (membersToJson members))])])]

def membersToJson : List (String × Member) → List (String × Json)
  | [] => []
  | (name, m) :: rest => (name, toJson m) :: membersToJson rest

end

/-- A member of a nested interface stands four containers deeper. -/
def ofJson : Nat → Json → Option Member
  | depth + 4, j => do
    match ← variant? (depth + 4) j with
    | (_, "Port", v) =>
      let [flow, shape] ← fields? ["flow", "shape"] v | none
      return .port (← need Flow.form (depth + 2) flow) (← need .shape (depth + 2) shape)
    | (_, "Interface", v) =>
      let [flow, signature] ← fields? ["flow", "signature"] v | none
      let [some (.object members)] ← fields? ["members"] (← signature) | none
      let pairs ← members.mapM fun p => (ofJson depth p.2).map (p.1, ·)
      return .interface (← need Flow.form (depth + 2) flow) (Table.ofPairs pairs)
    | _ => none
  | depth, j => do
    let (depth, "Port", v) ← variant? depth j | none
    let (depth, [flow, shape]) ← record? ["flow", "shape"] depth v | none
    return .port (← need Flow.form depth flow) (← need .shape depth shape)

def form : Form Member := ⟨toJson, ofJson⟩

end Member

namespace Signature

def form : Form Signature where
  write s := .object [("members", .object (Member.membersToJson s))]
  read depth j := do
    let (depth, [members]) ← record? ["members"] depth j | none
    need Member.form.table depth members

end Signature

end NetBridge
