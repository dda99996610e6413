import NetBridge.Host.Netlist
import NetBridge.Proofs.Number

/-! # What host expressions mean

An expression is evaluated in whole words, and whoever takes the value keeps the bits that it has
room for. Those are the bits that the expression has at that width, however complements are
nested. Only the width of a constant has no part in it: all bits of the value count. -/
namespace NetBridge.Host.Expr

/-- The bits of an expression at a width. A constant has as many bits of its value as its own
width says, and zeros above them. -/
def meaning (w : Nat) (read : SignalId → Word) : Expr → BitVec w
  | signal id => (read id).setWidth w
  | const value width => (value.setWidth width).setWidth w
  | not operand => ~~~ meaning w read operand
  | replicate bit count => (((read bit).setWidth 1).replicate count).setWidth w

/-- The same expression, but its constant is as wide as a word. -/
def widened : Expr → Expr
  | signal id => signal id
  | const value _ => const value 64
  | not operand => not (widened operand)
  | replicate bit count => replicate bit count

/-- Bit `i` of the constant is not a one outside the constant's width. -/
def FitsAt (i : Nat) : Expr → Prop
  | signal _ => True
  | const value width => width ≤ i → value.getLsbD i = false
  | not operand => FitsAt i operand
  | replicate _ _ => True

/-- The constant has no ones outside its width among the lowest `w` bits. -/
def Fits (w : Nat) (e : Expr) : Prop := ∀ i < w, e.FitsAt i

/-- A word ends before such a bit. -/
theorem fitsAt_of_le (e : Expr) {i : Nat} (h : 64 ≤ i) : e.FitsAt i := by
  induction e with
  | const value width => exact fun _ => BitVec.getLsbD_of_ge value i h
  | not operand ih => exact ih
  | _ => trivial

variable {w : Nat} {read : SignalId → Word}

theorem getLsbD_eval (e : Expr) {i : Nat} (hi : i < w) (word : i < 64) :
    (e.eval read).getLsbD i = (e.widened.meaning w read).getLsbD i := by
  induction e with
  | signal id => simp [eval, widened, meaning, hi]
  | const value width => simp [eval, widened, meaning, hi, word]
  | not operand ih =>
    rw [eval, widened, meaning, BitVec.getLsbD_not, BitVec.getLsbD_not, ih]
    simp [hi, word]
  | replicate bit count =>
    have copies : (((read bit).setWidth 1).replicate count).getLsbD i =
        (decide (i < count) && (read bit).getLsbD 0) := by
      rw [BitVec.getLsbD_replicate, Nat.one_mul, Nat.mod_one, BitVec.getLsbD_setWidth]
      simp
    rw [eval, widened, meaning, BitVec.getLsbD_setWidth, copies, decide_eq_true hi, Bool.true_and]
    cases (read bit).getLsbD 0 with
    | false => simp
    | true => simpa using Word.getLsbD_ones_of_lt count word

/-- The width of a constant makes a difference where the constant has a one outside it. -/
theorem getLsbD_meaning_iff (e : Expr) {i : Nat} (hi : i < w) (word : i < 64) :
    (e.widened.meaning w read).getLsbD i = (e.meaning w read).getLsbD i ↔ e.FitsAt i := by
  induction e with
  | signal id => simp [widened, FitsAt]
  | const value width =>
    simp only [widened, meaning, FitsAt, BitVec.getLsbD_setWidth, hi, word, decide_true,
      Bool.true_and]
    cases value.getLsbD i <;> simp
  | not operand ih =>
    rw [widened, meaning, meaning, BitVec.getLsbD_not, BitVec.getLsbD_not, FitsAt, ← ih]
    simp [hi]
  | replicate bit count => simp [widened, FitsAt]

theorem truncate_eval (e : Expr) (shape : Shape) (read : SignalId → Word) :
    shape.truncate (e.eval read) = (e.widened.meaning shape.width read).setWidth 64 := by
  apply BitVec.eq_of_getLsbD_eq
  intro i word
  rw [Shape.truncate, Shape.mask, BitVec.getLsbD_and, Word.getLsbD_ones_of_lt _ word,
    BitVec.getLsbD_setWidth, decide_eq_true word, Bool.true_and]
  by_cases hi : i < shape.width
  · rw [getLsbD_eval e hi word, decide_eq_true hi, Bool.and_true]
  · rw [decide_eq_false hi, Bool.and_false, BitVec.getLsbD_of_ge _ _ (Nat.le_of_not_lt hi)]

/-- The bits that a shape keeps are those of the expression with its constant as wide as a word,
at the width of the shape. They are those of the expression itself where the constant has no ones
outside its width. -/
theorem truncated_value_is_meaning_iff (e : Expr) (shape : Shape) (read : SignalId → Word) :
    shape.truncate (e.eval read) = (e.widened.meaning shape.width read).setWidth 64 ∧
      (shape.truncate (e.eval read) = (e.meaning shape.width read).setWidth 64 ↔
        e.Fits shape.width) := by
  refine ⟨truncate_eval e shape read, ?_⟩
  rw [truncate_eval]
  constructor
  · intro same i hi
    -- A shape may be wider than a word, and no constant has ones beyond a word.
    by_cases word : i < 64
    · have bit := congrArg (BitVec.getLsbD · i) same
      simp only [BitVec.getLsbD_setWidth, decide_eq_true word, Bool.true_and] at bit
      exact (getLsbD_meaning_iff e hi word).mp bit
    · exact fitsAt_of_le e (Nat.le_of_not_lt word)
  · intro fits
    apply BitVec.eq_of_getLsbD_eq
    intro i word
    rw [BitVec.getLsbD_setWidth, BitVec.getLsbD_setWidth]
    by_cases hi : i < shape.width
    · rw [(getLsbD_meaning_iff e hi word).mpr (fits i hi)]
    · rw [BitVec.getLsbD_of_ge _ _ (Nat.le_of_not_lt hi),
        BitVec.getLsbD_of_ge _ _ (Nat.le_of_not_lt hi)]

/-- Eight ones in a constant of four bits. -/
example : Shape.truncate (.unsignedBits 8) ((const 255 4).eval fun _ => 0) = 255 ∧
    (const 255 4).meaning 8 (fun _ => 0) = 15 := by decide

end NetBridge.Host.Expr
