import NetBridge.Proofs.Verilog.Semantics

/-! # Selections

Bits are selected from nets by bit selects and part selects. The net has to be declared
as a vector and the bits have to lie within its range: a single bit is declared as a
scalar, and nothing can be selected from a scalar. -/
namespace NetBridge.Verilog

/-- The bits of a net from `low` up to and including `high`. -/
structure Selection where
  base : String
  high : Nat
  low : Nat
deriving DecidableEq

namespace Expr

mutual

/-- The selections in an expression. A bit select is one of a single bit. -/
def selections : Expr → List Selection
  | name _ => []
  | literal _ _ => []
  | unary _ operand => selections operand
  | binary _ left right => selections left ++ selections right
  | bitSelect base index => [⟨base, index, index⟩]
  | partSelect base high low => [⟨base, high, low⟩]
  | concat parts => selectionsOfParts parts
  | conditional condition whenTrue whenFalse =>
    selections condition ++ (selections whenTrue ++ selections whenFalse)

def selectionsOfParts : List Expr → List Selection
  | [] => []
  | e :: rest => selections e ++ selectionsOfParts rest

end

theorem selectionsOfParts_append (l r : List Expr) :
    selectionsOfParts (l ++ r) = selectionsOfParts l ++ selectionsOfParts r := by
  induction l with
  | nil => rfl
  | cons e rest ih => simp [selectionsOfParts, ih]

mutual

theorem selections_normal (e : Expr) : e.normal.selections = e.selections := by
  cases e with
  | unary op operand => exact selections_normal operand
  | binary op left right =>
    rw [normal, selections, selections, selections_normal left, selections_normal right]
  | concat parts => exact selectionsOfParts_normal parts
  | conditional condition whenTrue whenFalse =>
    rw [normal, selections, selections, selections_normal condition, selections_normal whenTrue,
      selections_normal whenFalse]
  | _ => rfl

theorem selectionsOfParts_normal (parts : List Expr) :
    selectionsOfParts (normalParts parts) = selectionsOfParts parts := by
  cases parts with
  | nil => rfl
  | cons e rest =>
    rw [normalParts, selectionsOfParts, selectionsOfParts, selections_normal e,
      selectionsOfParts_normal rest]

end

end Expr

def selectionsOf (assigns : List Assign) : List Selection := assigns.flatMap (·.value.selections)

/-- The selections in a module. -/
def Module.selections (m : Module) : List Selection :=
  selectionsOf m.assigns ++ m.processes.flatMap fun p => selectionsOf p.updates

theorem Module.selections_normal (m : Module) : m.normal.selections = m.selections := by
  simp [selections, selectionsOf, normal, normalAssign, normalProcess, List.flatMap_map,
    Expr.selections_normal]

/-- The highest index in the range of a declaration. A scalar has no range. -/
def vectorTop (shape : Shape) : Option Nat :=
  if 1 < shape.width then some (shape.width - 1) else none

/-- The base is declared, and every declaration of it has a range with the bits in it. -/
structure Selection.Legal (m : Module) (x : Selection) : Prop where
  declared : x.base ∈ m.declared
  ordered : x.low ≤ x.high
  within : ∀ p ∈ m.shapes, p.1 = x.base → ∃ top, vectorTop p.2 = some top ∧ x.high ≤ top

end NetBridge.Verilog
