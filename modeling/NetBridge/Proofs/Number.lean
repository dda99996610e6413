import Mathlib.Algebra.Order.Ring.Int
import NetBridge.Operator
import NetBridge.Shape

/-! # Numbers and bits

Bits stand for a number, unsigned or as two's complement, and a number has bits at every
width. The lowest bits of a result depend on the lowest bits of the operands alone. -/
namespace NetBridge

theorem Word.ones_toNat (n : Nat) : (ones n).toNat = 2 ^ min n 64 - 1 := by
  have bound : 2 ^ min n 64 ≤ 2 ^ 64 := Nat.pow_le_pow_right (by decide) (Nat.min_le_right n 64)
  rw [ones, BitVec.toNat_ofNat, Nat.pow_eq]
  exact Nat.mod_eq_of_lt (by omega)

theorem Word.getLsbD_ones (n i : Nat) : (ones n).getLsbD i = decide (i < min n 64) := by
  rw [BitVec.getLsbD, ones_toNat, Nat.testBit_two_pow_sub_one]

theorem Word.getLsbD_ones_of_lt (n : Nat) {i : Nat} (h : i < 64) :
    (ones n).getLsbD i = decide (i < n) := by
  rw [getLsbD_ones]
  exact decide_eq_decide.mpr (by omega)

/-- The number that some bits stand for. -/
def number (signed : Bool) {w : Nat} (x : BitVec w) : Int := if signed then x.toInt else x.toNat

/-- Bits in a context of some width. They are extended by the signedness of the context. -/
def extend (signed : Bool) {w : Nat} (x : BitVec w) (n : Nat) : BitVec n :=
  BitVec.ofInt n (number signed x)

def UnaryOp.apply {n : Nat} : UnaryOp → BitVec n → BitVec n
  | not, x => ~~~x
  | neg, x => -x

/-- What an operator that is no comparison makes of two operands of one width. -/
def BinaryOp.combine {n : Nat} : BinaryOp → BitVec n → BitVec n → BitVec n
  | and, x, y => x &&& y
  | or, x, y => x ||| y
  | xor, x, y => x ^^^ y
  | add, x, y => x + y
  | sub, x, y => x - y
  | _, _, _ => 0

/-- Whether a comparison holds. -/
def BinaryOp.relates : BinaryOp → Int → Int → Bool
  | eq, x, y => x == y
  | ne, x, y => x != y
  | lt, x, y => x < y
  | _, _, _ => false

namespace Shape

/-- The bits that a signal of this shape has for a number. -/
def bits (s : Shape) (v : Int) : BitVec s.width := BitVec.ofInt s.width v

/-- The number that a signal of this shape makes of a number. -/
def read (s : Shape) (v : Int) : Int := number s.signed (s.bits v)

/-- The numbers that a signal of this shape can have. -/
def Holds (s : Shape) (v : Int) : Prop := s.read v = v

/-- The other shape has the numbers of this one, read the same way. -/
def fitsIn (s t : Shape) : Bool := s.signed == t.signed && decide (s.width ≤ t.width)

end Shape

section

variable {n w : Nat}

theorem two_pow_pos (w : Nat) : 0 < ((2 ^ w : Nat) : Int) := Int.natCast_pos.mpr (Nat.two_pow_pos w)

theorem ofInt_number (signed : Bool) (x : BitVec w) : BitVec.ofInt w (number signed x) = x := by
  cases signed <;> simp [number]

theorem setWidth_ofInt (h : n ≤ w) (v : Int) :
    (BitVec.ofInt w v).setWidth n = BitVec.ofInt n v := by
  have dvd : ((2 ^ n : Nat) : Int) ∣ ((2 ^ w : Nat) : Int) :=
    Int.natCast_dvd_natCast.mpr (Nat.pow_dvd_pow 2 h)
  have nonneg : 0 ≤ v % ((2 ^ w : Nat) : Int) := Int.emod_nonneg v (Int.ne_of_gt (two_pow_pos w))
  apply BitVec.eq_of_toNat_eq
  rw [BitVec.toNat_setWidth, BitVec.toNat_ofInt, BitVec.toNat_ofInt, ← Int.emod_emod_of_dvd v dvd,
    Int.toNat_emod nonneg (Int.le_of_lt (two_pow_pos n)), Int.toNat_natCast]

theorem extend_self (signed : Bool) (x : BitVec w) : extend signed x w = x := ofInt_number signed x

/-- In a context that is not wider the signedness does not count. -/
theorem extend_of_le (signed : Bool) (h : n ≤ w) (x : BitVec w) :
    extend signed x n = x.setWidth n := by
  rw [extend, ← setWidth_ofInt h, ofInt_number]

theorem toNat_ofInt_iff (v : Int) :
    ((BitVec.ofInt w v).toNat : Int) = v ↔ 0 ≤ v ∧ v < 2 ^ w := by
  have pos := two_pow_pos w
  rw [BitVec.toNat_ofInt, Int.toNat_of_nonneg (Int.emod_nonneg v (Int.ne_of_gt pos))]
  constructor
  · intro h
    have hlo := Int.emod_nonneg v (Int.ne_of_gt pos)
    have hhi := Int.emod_lt_of_pos v pos
    push_cast at *
    omega
  · rintro ⟨hlo, hhi⟩
    exact Int.emod_eq_of_lt hlo (by push_cast; exact hhi)

theorem toInt_ofInt_iff (v : Int) :
    (BitVec.ofInt w v).toInt = v ↔ -2 ^ w ≤ 2 * v ∧ 2 * v < 2 ^ w := by
  constructor
  · intro h
    have hlo := BitVec.le_two_mul_toInt (x := BitVec.ofInt w v)
    have hhi := BitVec.two_mul_toInt_lt (x := BitVec.ofInt w v)
    rw [h] at hlo hhi
    exact ⟨hlo, hhi⟩
  · rintro ⟨hlo, hhi⟩
    rw [BitVec.toInt_ofInt]
    apply Int.bmod_eq_of_le_mul_two <;> push_cast <;> omega

end

namespace Shape

variable {s t : Shape} {w : Nat} {v x y : Int}

theorem holds_number (s : Shape) (x : BitVec s.width) : s.Holds (number s.signed x) := by
  rw [Holds, read, bits, ofInt_number]

theorem holds_read (s : Shape) (v : Int) : s.Holds (s.read v) := s.holds_number _

theorem holds_unsigned : Holds ⟨w, false⟩ v ↔ 0 ≤ v ∧ v < 2 ^ w := toNat_ofInt_iff v

theorem holds_signed : Holds ⟨w, true⟩ v ↔ -2 ^ w ≤ 2 * v ∧ 2 * v < 2 ^ w := toInt_ofInt_iff v

/-- A number that the shape holds is extended by its own signedness. -/
theorem Holds.extend_bits (h : s.Holds v) (n : Nat) :
    extend s.signed (s.bits v) n = BitVec.ofInt n v := congrArg (BitVec.ofInt n) h

/-- In a narrow context a number counts like what the shape makes of it. -/
theorem ofInt_read {n : Nat} (h : s.Holds v ∨ n ≤ s.width) :
    BitVec.ofInt n (s.read v) = BitVec.ofInt n v := by
  rcases h with held | narrow
  · exact held.extend_bits n
  · rw [← setWidth_ofInt narrow v]
    exact extend_of_le s.signed narrow (s.bits v)

theorem bits_eq_zero (h : s.Holds v) : s.bits v = 0 ↔ v = 0 := by
  constructor
  · intro zero
    rw [← h, read, zero]
    simp [number]
  · rintro rfl
    exact BitVec.ofInt_ofNat s.width 0

theorem Holds.mono (h : s.Holds v) (fits : s.fitsIn t = true) : t.Holds v := by
  obtain ⟨w, sg⟩ := s
  obtain ⟨k, tg⟩ := t
  obtain ⟨rfl, width⟩ : sg = tg ∧ w ≤ k := by simpa [fitsIn] using fits
  have pow : (2 : Int) ^ w ≤ 2 ^ k := by exact_mod_cast Nat.pow_le_pow_right (by decide) width
  cases sg with
  | false =>
    rw [holds_unsigned] at *
    omega
  | true =>
    rw [holds_signed] at *
    omega

theorem Holds.add {signed : Bool} (hx : Holds ⟨w, signed⟩ x) (hy : Holds ⟨w, signed⟩ y) :
    Holds ⟨w + 1, signed⟩ (x + y) := by
  cases signed with
  | false =>
    rw [holds_unsigned] at *
    rw [Int.pow_succ]
    omega
  | true =>
    rw [holds_signed] at *
    rw [Int.pow_succ]
    omega

theorem Holds.sub (hx : Holds ⟨w, true⟩ x) (hy : Holds ⟨w, true⟩ y) :
    Holds ⟨w + 1, true⟩ (x - y) := by
  rw [holds_signed] at *
  rw [Int.pow_succ]
  omega

theorem Holds.neg (h : s.Holds v) : Holds ⟨s.width + 1, true⟩ (-v) := by
  obtain ⟨w, signed⟩ := s
  change Holds ⟨w + 1, true⟩ (-v)
  rw [holds_signed, Int.pow_succ]
  cases signed with
  | false =>
    rw [holds_unsigned] at h
    omega
  | true =>
    rw [holds_signed] at h
    omega

theorem Holds.not (h : Holds ⟨w, true⟩ v) (positive : 0 < w) : Holds ⟨w, true⟩ (-1 - v) := by
  obtain ⟨k, rfl⟩ := Nat.exists_eq_succ_of_ne_zero (Nat.ne_of_gt positive)
  rw [holds_signed, Int.pow_succ] at *
  omega

end Shape

section

variable {n w : Nat}

theorem sub_ofInt (x y : Int) :
    BitVec.ofInt n x - BitVec.ofInt n y = BitVec.ofInt n (x - y) := by
  rw [BitVec.sub_eq_add_neg, ← BitVec.ofInt_neg, ← BitVec.ofInt_add, Int.sub_eq_add_neg]

theorem not_ofInt (v : Int) : ~~~BitVec.ofInt n v = BitVec.ofInt n (-1 - v) := by
  have one : BitVec.ofInt n 1 = 1#n := BitVec.ofInt_ofNat n 1
  rw [BitVec.not_eq_neg_add, ← one, ← BitVec.ofInt_neg, sub_ofInt]
  exact congrArg _ (by omega)

theorem UnaryOp.apply_setWidth (op : UnaryOp) (h : n ≤ w) (x : BitVec w) :
    (op.apply x).setWidth n = op.apply (x.setWidth n) := by
  cases op with
  | not => exact BitVec.setWidth_not h
  | neg => exact BitVec.setWidth_neg_of_le h

theorem BinaryOp.combine_setWidth (op : BinaryOp) (h : n ≤ w) (x y : BitVec w) :
    (op.combine x y).setWidth n = op.combine (x.setWidth n) (y.setWidth n) := by
  cases op with
  | and => exact BitVec.setWidth_and
  | or => exact BitVec.setWidth_or
  | xor => exact BitVec.setWidth_xor
  | add => exact BitVec.setWidth_add x y h
  | sub =>
    rw [combine, combine, BitVec.sub_eq_add_neg, BitVec.setWidth_add _ _ h,
      BitVec.setWidth_neg_of_le h, BitVec.sub_eq_add_neg]
  | _ => exact BitVec.setWidth_zero ..

/-- Bits of a logical operation in a wider context. -/
theorem BinaryOp.combine_extend {op : BinaryOp} (logical : op = and ∨ op = or ∨ op = xor)
    (signed : Bool) (x y : BitVec w) :
    extend signed (op.combine x y) n = op.combine (extend signed x n) (extend signed y n) := by
  cases signed with
  | false =>
    simp only [extend, number, Bool.false_eq_true, if_false, BitVec.ofInt_natCast,
      BitVec.ofNat_toNat]
    rcases logical with rfl | rfl | rfl
    · exact BitVec.setWidth_and
    · exact BitVec.setWidth_or
    · exact BitVec.setWidth_xor
  | true =>
    change (op.combine x y).signExtend n = op.combine (x.signExtend n) (y.signExtend n)
    rcases logical with rfl | rfl | rfl
    · exact BitVec.signExtend_and
    · exact BitVec.signExtend_or
    · exact BitVec.signExtend_xor

end

/-- The shape of a result. -/
def UnaryOp.result : UnaryOp → Shape → Shape
  | not, s => s
  | neg, s => ⟨s.width + 1, true⟩

def BinaryOp.result (op : BinaryOp) (l r : Shape) : Shape :=
  ⟨max l.width r.width + (if op.carries then 1 else 0), l.signed && r.signed⟩

/-- The result of the operation on bits of any width is the same number. -/
def UnaryOp.exact : UnaryOp → Shape → Bool
  | not, s => s.signed && decide (0 < s.width)
  | neg, _ => true

def BinaryOp.exact : BinaryOp → Shape → Shape → Bool
  | sub, l, r => l.signed && r.signed
  | _, l, r => l.signed == r.signed

theorem UnaryOp.apply_ofInt (op : UnaryOp) {s : Shape} {v : Int} (held : s.Holds v) {n : Nat}
    (fits : op.exact s = true ∨ n ≤ (op.result s).width) : op.apply (BitVec.ofInt n v) =
      extend (op.result s).signed (op.apply ((op.result s).bits v)) n := by
  rcases fits with exact | narrow
  · cases op with
    | neg =>
      have negated : (UnaryOp.neg.result s).Holds (-v) := held.neg
      rw [apply, apply, Shape.bits, ← BitVec.ofInt_neg, ← BitVec.ofInt_neg]
      exact (negated.extend_bits n).symm
    | not =>
      obtain ⟨w, signed⟩ := s
      simp only [UnaryOp.exact, Bool.and_eq_true, decide_eq_true_eq] at exact
      obtain ⟨rfl, positive⟩ := exact
      rw [apply, apply, Shape.bits, not_ofInt, not_ofInt]
      exact ((held.not positive).extend_bits n).symm
  · rw [extend_of_le _ narrow, apply_setWidth op narrow, Shape.bits, setWidth_ofInt narrow]

theorem BinaryOp.combine_ofInt (op : BinaryOp) {l r : Shape} {x y : Int} (hx : l.Holds x)
    (hy : r.Holds y) {n : Nat} (fits : op.exact l r = true ∨ n ≤ (op.result l r).width)
    (arithmetic : op.isComparison = false) :
    op.combine (BitVec.ofInt n x) (BitVec.ofInt n y) =
      extend (op.result l r).signed
        (op.combine ((op.result l r).bits x) ((op.result l r).bits y)) n := by
  rcases fits with exact | narrow
  · obtain ⟨w, signed⟩ := l
    obtain ⟨k, rsigned⟩ := r
    obtain rfl : signed = rsigned := by
      cases op <;> simp_all [BinaryOp.exact]
    let common : Shape := ⟨max w k, signed⟩
    have hx : common.Holds x := hx.mono (by simp [Shape.fitsIn, common])
    have hy : common.Holds y := hy.mono (by simp [Shape.fitsIn, common])
    have shape : op.result ⟨w, signed⟩ ⟨k, signed⟩ =
        ⟨common.width + (if op.carries then 1 else 0), signed⟩ := by
      rw [result, Bool.and_self]
    rw [shape]
    cases op with
    | add =>
      rw [combine, combine, Shape.bits, Shape.bits, ← BitVec.ofInt_add, ← BitVec.ofInt_add]
      exact ((hx.add hy).extend_bits n).symm
    | sub =>
      obtain rfl : signed = true := by simpa [BinaryOp.exact] using exact
      rw [combine, combine, Shape.bits, Shape.bits, sub_ofInt, sub_ofInt]
      exact ((hx.sub hy).extend_bits n).symm
    | and | or | xor =>
      rw [← hx.extend_bits, ← hy.extend_bits, ← combine_extend (by simp)]
      rfl
    | _ => cases arithmetic
  · rw [extend_of_le _ narrow, combine_setWidth op narrow, Shape.bits, Shape.bits,
      setWidth_ofInt narrow, setWidth_ofInt narrow]

end NetBridge
