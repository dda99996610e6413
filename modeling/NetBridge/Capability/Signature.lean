import NetBridge.Pad.Mode
import NetBridge.Shape
import NetBridge.Table

/-! # Signatures

A signature declares the members of a capability. Two signatures agree when they
have the same members, in whatever order. -/
namespace NetBridge

inductive Member where
  | port (flow : Flow) (shape : Shape)
  /-- A nested interface and the flow of it as a whole. -/
  | interface (flow : Flow) (members : List (String × Member))

abbrev Signature := Table String Member

namespace Member

def flow : Member → Flow
  | port flow _ | interface flow _ => flow

mutual

def agrees : Member → Member → Bool
  | port f s, port g t => f == g && s == t
  | interface f ms, interface g ns => f == g && ms.length == ns.length && agreesWithin ms ns
  | _, _ => false

/-- Every member agrees with the one of the same name. -/
def agreesWithin : List (String × Member) → List (String × Member) → Bool
  | [], _ => true
  | (name, m) :: rest, ns =>
    (match Table.get? ns name with
      | some n => agrees m n
      | none => false) && agreesWithin rest ns

end

mutual

def text : Member → String
  | port flow shape => flow.text ++ "(" ++ shape.text ++ ")"
  | interface flow members => flow.text ++ "(Signature(\x7b" ++ membersText members ++ "\x7d))"

def membersText : List (String × Member) → String
  | [] => ""
  | [(name, m)] => "'" ++ name ++ "': " ++ text m
  | (name, m) :: rest => "'" ++ name ++ "': " ++ text m ++ ", " ++ membersText rest

end

end Member

/-- What sets a signature apart from the one that was declared. -/
inductive SignatureDifference where
  | missing (name : String)
  | changed (name : String) (declared built : Member)
  | undeclared (name : String)

namespace SignatureDifference

def text : SignatureDifference → String
  | missing name => s!"member '{name}' is missing"
  | changed name declared built =>
    s!"member '{name}' is declared as {declared.text} but built as {built.text}"
  | undeclared name => s!"member '{name}' is not declared"

end SignatureDifference

namespace Signature

def text (s : Signature) : String := "Signature(\x7b" ++ Member.membersText s ++ "\x7d)"

def agrees (a b : Signature) : Bool := a.length == b.length && Member.agreesWithin a b

/-- The members that a leaf exposes for its roles. Only data is signed. -/
def ofRoles (roles : List Role) (padShape : Shape) : Signature :=
  Table.ofPairs (roles.map fun r =>
    (r.text, .port r.flow ⟨r.width padShape.width, r.isData && padShape.signed⟩))

/-- The first member of `declared` that `built` lacks or has otherwise. -/
def shortfall? (declared built : Signature) : Option SignatureDifference :=
  declared.findSome? fun (name, m) =>
    match Table.get? built name with
    | none => some (.missing name)
    | some n => if m.agrees n then none else some (.changed name m n)

/-- The first member of `built` that `declared` lacks. -/
def surplus? (declared built : Signature) : Option SignatureDifference :=
  (built.keys.find? fun name => !Table.contains declared name).map .undeclared

def difference? (declared built : Signature) : Option SignatureDifference :=
  shortfall? declared built <|> surplus? declared built

end Signature

end NetBridge
