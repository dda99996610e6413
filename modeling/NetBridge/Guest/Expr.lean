import NetBridge.Arena
import NetBridge.Operator
import NetBridge.Shape

/-! # Guest expressions

Expression trees over the signals of a guest netlist, and the shapes that are
inferred for them. No operation loses a bit: sums and differences keep their
carry, a negation is one bit wider than its operand. -/
namespace NetBridge.Guest

structure Signal where
  /-- The generator may change the name to keep names legal and apart. -/
  name : String
  shape : Shape
  /-- The value after a reset, and the value of a signal that nothing drives. -/
  reset : Word
deriving DecidableEq, Inhabited

abbrev SignalId := Key Signal

inductive Expr where
  | signal (id : SignalId)
  | const (value : Word) (shape : Shape)
  | unary (op : UnaryOp) (operand : Expr)
  | binary (op : BinaryOp) (left right : Expr)
  /-- Bits `start` up to but not including `stop`. -/
  | slice (value : Expr) (start stop : Nat)
  /-- The first part holds the lowest bits. -/
  | concat (parts : List Expr)
  | mux (select whenSet whenClear : Expr)

namespace Expr

instance : Inhabited Expr := ⟨const 0 default⟩

/-- An unsigned constant, cut to its width. -/
def ofWord (value : Word) (width : Nat) : Expr :=
  const ((Shape.unsignedBits width).truncate value) (.unsignedBits width)

/-- A unary operator, `n` times over. -/
def repeated (op : UnaryOp) : Nat → Expr → Expr
  | 0, e => e
  | n + 1, e => .unary op (repeated op n e)

mutual

/-- The shape of an expression. Widths are added without a limit; an expression `fits` if they
stay within 32 bits. -/
def shape (shapeOf : SignalId → Shape) : Expr → Shape
  | signal id => shapeOf id
  | const _ shape => shape
  | unary .not operand => shape shapeOf operand
  | unary .neg operand => .signedBits ((shape shapeOf operand).width + 1)
  | binary op left right =>
    if op.isComparison then .bit
    else
      let l := shape shapeOf left
      let r := shape shapeOf right
      ⟨max l.width r.width + (if op.carries then 1 else 0), l.signed && r.signed⟩
  | slice _ start stop => .unsignedBits (stop - start)
  | concat parts => .unsignedBits (totalWidth shapeOf parts)
  | mux _ whenSet whenClear =>
    let s := shape shapeOf whenSet
    let c := shape shapeOf whenClear
    ⟨max s.width c.width, s.signed && c.signed⟩

def totalWidth (shapeOf : SignalId → Shape) : List Expr → Nat
  | [] => 0
  | e :: rest => (shape shapeOf e).width + totalWidth shapeOf rest

end

mutual

/-- The signals whose shapes the shape of an expression depends on. -/
def sized : Expr → List SignalId
  | signal id => [id]
  | const _ _ => []
  | unary _ operand => sized operand
  | binary op left right => if op.isComparison then [] else sized left ++ sized right
  | slice _ _ _ => []
  | concat parts => sizedParts parts
  | mux _ whenSet whenClear => sized whenSet ++ sized whenClear

def sizedParts : List Expr → List SignalId
  | [] => []
  | e :: rest => sized e ++ sizedParts rest

end

/-- Widths are numbers of 32 bits. -/
def widthLimit : Nat := Nat.pow 2 32

mutual

/-- Every width that the shape of an expression depends on is below the limit. -/
def fits (shapeOf : SignalId → Shape) : Expr → Bool
  | signal _ | const _ _ | slice _ _ _ => true
  | unary .not operand => fits shapeOf operand
  | unary .neg operand =>
    fits shapeOf operand && decide ((shape shapeOf operand).width + 1 < widthLimit)
  | binary op left right =>
    op.isComparison || (fits shapeOf left && fits shapeOf right &&
      decide ((shape shapeOf (binary op left right)).width < widthLimit))
  | concat parts => fitsParts shapeOf parts && decide (totalWidth shapeOf parts < widthLimit)
  | mux _ whenSet whenClear => fits shapeOf whenSet && fits shapeOf whenClear

def fitsParts (shapeOf : SignalId → Shape) : List Expr → Bool
  | [] => true
  | e :: rest => fits shapeOf e && fitsParts shapeOf rest

end

mutual

/-- The signals that are read, in the order of a walk from left to right. -/
def reads : Expr → List SignalId
  | signal id => [id]
  | const _ _ => []
  | unary _ operand => reads operand
  | binary _ left right => reads left ++ reads right
  | slice value _ _ => reads value
  | concat parts => readsParts parts
  | mux select whenSet whenClear => reads select ++ reads whenSet ++ reads whenClear

def readsParts : List Expr → List SignalId
  | [] => []
  | e :: rest => reads e ++ readsParts rest

end

end Expr

end NetBridge.Guest
