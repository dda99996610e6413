import NetBridge.Proofs.Number
import NetBridge.Proofs.Verilog.RoundTrip
import NetBridge.Table

/-! # What expressions mean

Values of expressions by IEEE 1364-2001. A context has a width and a signedness, which
most operands share. Parts of a concatenation and the condition of a conditional have
their own, and the operands of a comparison have one of their own together. -/
namespace NetBridge.Verilog

namespace Expr

section

variable (shapeOf : String → Shape)

mutual

/-- The width that an expression has by itself. -/
def width : Expr → Nat
  | name x => (shapeOf x).width
  | literal _ shape => shape.width
  | unary _ operand => width operand
  | binary op left right => if op.isComparison then 1 else max (width left) (width right)
  | bitSelect _ _ => 1
  | partSelect _ high low => high + 1 - low
  | concat parts => partsWidth parts
  | conditional _ whenTrue whenFalse => max (width whenTrue) (width whenFalse)

def partsWidth : List Expr → Nat
  | [] => 0
  | e :: rest => width e + partsWidth rest

end

/-- An expression is signed if nothing in its context is unsigned. -/
def signed : Expr → Bool
  | name x => (shapeOf x).signed
  | literal _ shape => shape.signed
  | unary _ operand => signed operand
  | binary op left right => !op.isComparison && (signed left && signed right)
  | bitSelect _ _ | partSelect _ _ _ | concat _ => false
  | conditional _ whenTrue whenFalse => signed whenTrue && signed whenFalse

variable (env : String → Int)

mutual

/-- The value of an expression in a context of this width and signedness. -/
def eval : Expr → (n : Nat) → Bool → BitVec n
  | name x, n, s => extend s ((shapeOf x).bits (env x)) n
  | literal value shape, n, s => extend s (value.setWidth shape.width) n
  | unary op operand, n, s => op.apply (eval operand n s)
  | binary op left right, n, s =>
    if op.isComparison then
      let m := max (width shapeOf left) (width shapeOf right)
      let both := signed shapeOf left && signed shapeOf right
      BitVec.ofNat n (op.relates (number both (eval left m both))
        (number both (eval right m both))).toNat
    else op.combine (eval left n s) (eval right n s)
  | bitSelect base index, n, _ => (((shapeOf base).bits (env base)).extractLsb' index 1).setWidth n
  | partSelect base high low, n, _ =>
    (((shapeOf base).bits (env base)).extractLsb' low (high + 1 - low)).setWidth n
  | concat parts, n, _ => BitVec.ofNat n (partsEval parts)
  | conditional condition whenTrue whenFalse, n, s =>
    if eval condition (width shapeOf condition) (signed shapeOf condition) = 0 then
      eval whenFalse n s
    else eval whenTrue n s

/-- The number that the bits of the parts make, the first ones on top. -/
def partsEval : List Expr → Nat
  | [] => 0
  | e :: rest =>
    (eval e (width shapeOf e) (signed shapeOf e)).toNat * 2 ^ partsWidth shapeOf rest +
      partsEval rest

end

/-- What a target of this width is given. The context has the width of the wider side and
the signedness of the expression, and the target takes the lowest bits. -/
def assigned (e : Expr) (w : Nat) : BitVec w :=
  (e.eval shapeOf env (max w (e.width shapeOf)) (e.signed shapeOf)).setWidth w

end

section

variable {shapeOf : String → Shape} {env env' : String → Int}

theorem partsWidth_append (l r : List Expr) :
    partsWidth shapeOf (l ++ r) = partsWidth shapeOf l + partsWidth shapeOf r := by
  induction l with
  | nil => exact (Nat.zero_add _).symm
  | cons e rest ih => rw [List.cons_append, partsWidth, partsWidth, ih, Nat.add_assoc]

theorem partsEval_append (l r : List Expr) : partsEval shapeOf env (l ++ r) =
    partsEval shapeOf env l * 2 ^ partsWidth shapeOf r + partsEval shapeOf env r := by
  induction l with
  | nil => rw [List.nil_append, partsEval, Nat.zero_mul, Nat.zero_add]
  | cons e rest ih =>
    rw [List.cons_append, partsEval, partsEval, ih, partsWidth_append, Nat.pow_add, Nat.add_mul,
      Nat.mul_assoc, Nat.add_assoc]

mutual

theorem eval_congr (e : Expr) (same : ∀ x ∈ e.names, env x = env' x) (n : Nat) (s : Bool) :
    e.eval shapeOf env n s = e.eval shapeOf env' n s := by
  cases e with
  | name x => rw [eval, eval, same x (by simp [names])]
  | literal value shape => rfl
  | unary op operand => rw [eval, eval, eval_congr operand same]
  | binary op left right =>
    have hl := eval_congr left fun x hx => same x (by simp [names, hx])
    have hr := eval_congr right fun x hx => same x (by simp [names, hx])
    simp only [eval, hl, hr]
  | bitSelect base index => rw [eval, eval, same base (by simp [names])]
  | partSelect base high low => rw [eval, eval, same base (by simp [names])]
  | concat parts => rw [eval, eval, partsEval_congr parts same]
  | conditional condition whenTrue whenFalse =>
    have hc := eval_congr condition fun x hx => same x (by simp [names, hx])
    have ht := eval_congr whenTrue fun x hx => same x (by simp [names, hx])
    have hf := eval_congr whenFalse fun x hx => same x (by simp [names, hx])
    simp only [eval, hc, ht, hf]

theorem partsEval_congr (parts : List Expr) (same : ∀ x ∈ namesOfParts parts, env x = env' x) :
    partsEval shapeOf env parts = partsEval shapeOf env' parts := by
  cases parts with
  | nil => rfl
  | cons e rest =>
    have he := eval_congr e fun x hx => same x (by simp [namesOfParts, hx])
    have hr := partsEval_congr rest fun x hx => same x (by simp [namesOfParts, hx])
    simp only [partsEval, he, hr]

end

theorem setWidth_truncate (s : Shape) (w : Word) :
    (s.truncate w).setWidth s.width = w.setWidth s.width := by
  apply BitVec.eq_of_toNat_eq
  have bound : w.toNat < 2 ^ 64 := w.isLt
  rw [BitVec.toNat_setWidth, BitVec.toNat_setWidth, Shape.truncate, Shape.mask, BitVec.toNat_and,
    Word.ones_toNat, Nat.and_two_pow_sub_one_eq_mod]
  rcases Nat.le_total s.width 64 with h | h
  · rw [Nat.min_eq_left h, Nat.mod_mod]
  · rw [Nat.min_eq_right h, Nat.mod_eq_of_lt bound]

mutual

theorem width_normal (e : Expr) : e.normal.width shapeOf = e.width shapeOf := by
  cases e with
  | unary op operand => exact width_normal operand
  | binary op left right =>
    rw [normal, width, width, width_normal left, width_normal right]
  | concat parts => exact partsWidth_normal parts
  | conditional condition whenTrue whenFalse =>
    rw [normal, width, width, width_normal whenTrue, width_normal whenFalse]
  | _ => rfl

theorem partsWidth_normal (parts : List Expr) :
    partsWidth shapeOf (normalParts parts) = partsWidth shapeOf parts := by
  cases parts with
  | nil => rfl
  | cons e rest =>
    rw [normalParts, partsWidth, partsWidth, width_normal e, partsWidth_normal rest]

end

theorem signed_normal (e : Expr) : e.normal.signed shapeOf = e.signed shapeOf := by
  cases e with
  | unary op operand => exact signed_normal operand
  | binary op left right =>
    rw [normal, signed, signed, signed_normal left, signed_normal right]
  | conditional condition whenTrue whenFalse =>
    rw [normal, signed, signed, signed_normal whenTrue, signed_normal whenFalse]
  | _ => rfl

mutual

theorem eval_normal (e : Expr) (n : Nat) (s : Bool) :
    e.normal.eval shapeOf env n s = e.eval shapeOf env n s := by
  cases e with
  | literal value shape => rw [normal, eval, eval, setWidth_truncate]
  | unary op operand => rw [normal, eval, eval, eval_normal operand]
  | binary op left right =>
    rw [normal, eval, eval, width_normal left, width_normal right, signed_normal left,
      signed_normal right]
    simp only [eval_normal left, eval_normal right]
  | concat parts => rw [normal, eval, eval, partsEval_normal parts]
  | conditional condition whenTrue whenFalse =>
    rw [normal, eval, eval, width_normal condition, signed_normal condition]
    simp only [eval_normal condition, eval_normal whenTrue, eval_normal whenFalse]
  | _ => rfl

theorem partsEval_normal (parts : List Expr) :
    partsEval shapeOf env (normalParts parts) = partsEval shapeOf env parts := by
  cases parts with
  | nil => rfl
  | cons e rest =>
    rw [normalParts, partsEval, partsEval, width_normal e, signed_normal e, eval_normal e,
      partsWidth_normal rest, partsEval_normal rest]

end

theorem assigned_normal (e : Expr) (w : Nat) :
    e.normal.assigned shapeOf env w = e.assigned shapeOf env w := by
  rw [assigned, assigned, width_normal, signed_normal, eval_normal]

theorem assigned_congr {e : Expr} (same : ∀ x ∈ e.names, env x = env' x) (w : Nat) :
    e.assigned shapeOf env w = e.assigned shapeOf env' w := by
  rw [assigned, assigned, eval_congr e same]

end

end Expr

/-- The target of an assignment has what it is given. -/
def Assign.Settled (shapeOf : String → Shape) (env : String → Int) (a : Assign) : Prop :=
  (shapeOf a.target).bits (env a.target) =
    a.value.assigned shapeOf env (shapeOf a.target).width

namespace Module

/-- What is declared, with its shape. -/
def shapes (m : Module) : Table String Shape :=
  m.ports.map (fun p => (p.name, p.shape)) ++ m.nets.map fun n => (n.name, n.shape)

def shapeOf (m : Module) (n : String) : Shape := (Table.get? m.shapes n).getD default

theorem shapes_normal {m : Module} (positive : ∀ p ∈ m.shapes, 0 < p.2.width) :
    m.normal.shapes = m.shapes := by
  have declared : ∀ s : Shape, 0 < s.width → declaredShape s = s := by
    intro s hs
    rw [declaredShape, Nat.max_eq_left hs]
  rw [shapes, shapes, normal]
  congr 1
  · rw [List.map_map]
    refine List.map_congr_left fun p hp => ?_
    have := positive _ (List.mem_append_left _ (List.mem_map_of_mem hp))
    exact congrArg (Prod.mk p.name) (declared p.shape this)
  · rw [List.map_map]
    refine List.map_congr_left fun n hn => ?_
    have := positive _ (List.mem_append_right _ (List.mem_map_of_mem hn))
    cases n with
    | wire shape name => exact congrArg (Prod.mk name) (declared shape this)
    | reg shape name value => exact congrArg (Prod.mk name) (declared shape this)

theorem shapeOf_normal {m : Module} (positive : ∀ p ∈ m.shapes, 0 < p.2.width) :
    m.normal.shapeOf = m.shapeOf := by
  funext n
  rw [shapeOf, shapeOf, shapes_normal positive]

theorem settled_normal {shapeOf : String → Shape} {env : String → Int} {a : Assign} :
    (normalAssign a).Settled shapeOf env ↔ a.Settled shapeOf env := by
  rw [Assign.Settled, Assign.Settled, normalAssign, Expr.assigned_normal]

end Module

end NetBridge.Verilog
