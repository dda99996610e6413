import NetBridge.Proofs.Verilog.Semantics

/-! # Sizes

Literals are written with a size, and the parts of a concatenation have a size of their
own. None of them may be zero. -/
namespace NetBridge.Verilog

namespace Expr

variable (shapeOf : String → Shape)

mutual

/-- The sizes of the literals and of the parts of concatenations in an expression. -/
def sizes : Expr → List Nat
  | name _ => []
  | literal _ shape => [shape.width]
  | unary _ operand => sizes operand
  | binary _ left right => sizes left ++ sizes right
  | bitSelect _ _ => []
  | partSelect _ _ _ => []
  | concat parts => sizesOfParts parts
  | conditional condition whenTrue whenFalse =>
    sizes condition ++ (sizes whenTrue ++ sizes whenFalse)

def sizesOfParts : List Expr → List Nat
  | [] => []
  | e :: rest => width shapeOf e :: (sizes e ++ sizesOfParts rest)

end

variable {shapeOf}

theorem sizesOfParts_append (l r : List Expr) :
    sizesOfParts shapeOf (l ++ r) = sizesOfParts shapeOf l ++ sizesOfParts shapeOf r := by
  induction l with
  | nil => rfl
  | cons e rest ih => simp [sizesOfParts, ih]

mutual

theorem sizes_normal (e : Expr) : e.normal.sizes shapeOf = e.sizes shapeOf := by
  cases e with
  | unary op operand => exact sizes_normal operand
  | binary op left right =>
    rw [normal, sizes, sizes, sizes_normal left, sizes_normal right]
  | concat parts => exact sizesOfParts_normal parts
  | conditional condition whenTrue whenFalse =>
    rw [normal, sizes, sizes, sizes_normal condition, sizes_normal whenTrue,
      sizes_normal whenFalse]
  | _ => rfl

theorem sizesOfParts_normal (parts : List Expr) :
    sizesOfParts shapeOf (normalParts parts) = sizesOfParts shapeOf parts := by
  cases parts with
  | nil => rfl
  | cons e rest =>
    rw [normalParts, sizesOfParts, sizesOfParts, width_normal e, sizes_normal e,
      sizesOfParts_normal rest]

end

end Expr

def sizesOf (shapeOf : String → Shape) (assigns : List Assign) : List Nat :=
  assigns.flatMap (·.value.sizes shapeOf)

/-- The size of the value that a register has at power-up. -/
def Net.initialSize? : Net → Option Nat
  | .wire _ _ => none
  | .reg shape _ _ => some shape.width

namespace Module

/-- The sizes of the values that registers have at power-up and after a reset. -/
def registerSizes (m : Module) : List Nat :=
  m.nets.filterMap Net.initialSize? ++ m.processes.flatMap fun p => p.resets.map (·.shape.width)

/-- The sizes of all literals and of all parts of concatenations in a module. -/
def sizes (m : Module) : List Nat :=
  m.registerSizes ++
    (sizesOf m.shapeOf m.assigns ++ m.processes.flatMap fun p => sizesOf m.shapeOf p.updates)

theorem sizesOf_normal (shapeOf : String → Shape) (assigns : List Assign) :
    sizesOf shapeOf (assigns.map normalAssign) = sizesOf shapeOf assigns := by
  simp [sizesOf, normalAssign, List.flatMap_map, Expr.sizes_normal]

theorem sizes_normal {m : Module} (positive : ∀ p ∈ m.shapes, 0 < p.2.width) :
    m.normal.sizes = m.sizes := by
  have initial : m.normal.nets.filterMap Net.initialSize? = m.nets.filterMap Net.initialSize? := by
    rw [normal, List.filterMap_map]
    refine List.filterMap_congr fun n hn => ?_
    cases n with
    | wire shape name => rfl
    | reg shape name value =>
      have : 0 < shape.width :=
        positive (name, shape) (List.mem_append_right _ (List.mem_map_of_mem hn))
      exact congrArg some (Nat.max_eq_left this)
  rw [sizes, sizes, registerSizes, registerSizes, initial, shapeOf_normal positive]
  simp [normal, normalProcess, normalReset, sizesOf_normal, List.flatMap_map, Function.comp_def]

end Module

end NetBridge.Verilog
