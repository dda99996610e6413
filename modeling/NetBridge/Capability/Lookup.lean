import NetBridge.Bridge.Error
import NetBridge.Capability.Signature
import NetBridge.Guest.Netlist

/-! # Capabilities

A capability is what guest logic gets for a pad: a guest signal for each role of a single
pad, or a capability for each field of a group, together with the signature that was declared
for it. Guest logic reaches the signals by the names of fields and then by a role; the error
names the node that lacks the member. -/
namespace NetBridge

inductive Capability where
  /-- The signals stand in the order of the roles. -/
  | leaf (name : String) (signature : Signature) (signals : Table Role Guest.SignalId)
  | group (name : String) (signature : Signature) (fields : List (String × Capability))

namespace Capability

def name : Capability → String
  | leaf name _ _ | group name _ _ => name

def signature : Capability → Signature
  | leaf _ signature _ | group _ signature _ => signature

def isEmpty (c : Capability) : Bool := c.signature.isEmpty

def field? : Capability → String → Option Capability
  | leaf .., _ => none
  | group _ _ fields, name => Table.get? fields name

def signal? : Capability → Role → Option Guest.SignalId
  | leaf _ _ signals, role => Table.get? signals role
  | group .., _ => none

mutual

/-- Same name, members and signals; the order of fields does not count. -/
def same : Capability → Capability → Bool
  | leaf n s xs, leaf m t ys => n == m && s.agrees t && xs == ys
  | group n s fs, group m t gs =>
    n == m && s.agrees t && fs.length == gs.length && sameWithin fs gs
  | _, _ => false

def sameWithin : List (String × Capability) → List (String × Capability) → Bool
  | [], _ => true
  | (name, c) :: rest, gs =>
    (match Table.get? gs name with
      | some d => same c d
      | none => false) && sameWithin rest gs

end

/-- The signature of what was actually built. -/
def built (m : Guest.Netlist) : Capability → Signature
  | leaf _ _ signals => Table.ofPairs (signals.map fun p =>
      (p.1.text, .port p.1.flow (m.shapeOf p.2)))
  | group _ _ fields => Table.ofPairs (fields.map fun p =>
      (p.1, .interface .outward p.2.signature))

/-- What sets the built members apart from the declared ones. -/
def mismatch? (m : Guest.Netlist) (c : Capability) : Option SignatureDifference :=
  c.signature.difference? (c.built m)

/-- The capability of a field. -/
def field (c : Capability) (name : String) : Except BridgeError Capability :=
  match c.field? name with
  | some d => .ok d
  | none => .error (.missingMember c.name name)

/-- Follows a path of fields. -/
def atPath : Capability → List String → Except BridgeError Capability
  | c, [] => .ok c
  | c, name :: path => c.field name >>= (atPath · path)

/-- The signal of a role. -/
def signal (c : Capability) (role : Role) : Except BridgeError Guest.SignalId :=
  match c.signal? role with
  | some id => .ok id
  | none => .error (.missingMember c.name role.text)

end Capability

end NetBridge
