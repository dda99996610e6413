/-! # Operators -/
namespace NetBridge

inductive UnaryOp where
  | not
  | neg
deriving DecidableEq

namespace UnaryOp

def name : UnaryOp → String
  | not => "Not"
  | neg => "Neg"

def ofName? (s : String) : Option UnaryOp := [not, neg].find? (·.name == s)

/-- The operator in Verilog. -/
def token : UnaryOp → String
  | not => "~"
  | neg => "-"

end UnaryOp

inductive BinaryOp where
  | and
  | or
  | xor
  | add
  | sub
  | eq
  | ne
  | lt
deriving DecidableEq

namespace BinaryOp

def all : List BinaryOp := [and, or, xor, add, sub, eq, ne, lt]

def name : BinaryOp → String
  | and => "And"
  | or => "Or"
  | xor => "Xor"
  | add => "Add"
  | sub => "Sub"
  | eq => "Eq"
  | ne => "Ne"
  | lt => "Lt"

def ofName? (s : String) : Option BinaryOp := all.find? (·.name == s)

/-- The operator in Verilog. -/
def token : BinaryOp → String
  | and => "&"
  | or => "|"
  | xor => "^"
  | add => "+"
  | sub => "-"
  | eq => "=="
  | ne => "!="
  | lt => "<"

def isComparison : BinaryOp → Bool
  | eq | ne | lt => true
  | _ => false

/-- The result has one more bit than the wider operand. -/
def carries : BinaryOp → Bool
  | add | sub => true
  | _ => false

end BinaryOp

end NetBridge
