import NetBridge.Guest.Expr
import NetBridge.Proofs.Number

/-! # Values of expressions

The value of an expression has every part in the bits of its own shape. In a context, the
way Verilog reads the same operators, a part has the bits that the context gives it. The
two agree where no context is wider or narrower than a result needs it. -/
namespace NetBridge.Guest.Expr

section

variable (shapeOf : SignalId → Shape) (ρ : SignalId → Int)

mutual

/-- The number that an expression stands for. -/
def value : Expr → Int
  | signal id => (shapeOf id).read (ρ id)
  | const word shape => number shape.signed (word.setWidth shape.width)
  | unary op operand =>
    let s := shape shapeOf (unary op operand)
    number s.signed (op.apply (s.bits (value operand)))
  | binary op left right =>
    let s := shape shapeOf (binary op left right)
    if op.isComparison then (op.relates (value left) (value right)).toNat
    else number s.signed (op.combine (s.bits (value left)) (s.bits (value right)))
  | slice operand start stop =>
    (((shape shapeOf operand).bits (value operand)).extractLsb' start (stop - start)).toNat
  | concat parts => partsValue parts
  | mux condition whenSet whenClear =>
    (shape shapeOf (mux condition whenSet whenClear)).read
      (if value condition = 0 then value whenClear else value whenSet)

/-- Every part stands above the shapes of the parts before it. -/
def partsValue : List Expr → Nat
  | [] => 0
  | e :: rest => ((shape shapeOf e).bits (value e)).toNat +
      2 ^ (shape shapeOf e).width * partsValue rest

end

mutual

/-- The width that Verilog gives an expression by itself, without carries. -/
def ownWidth : Expr → Nat
  | signal id => (shapeOf id).width
  | const _ shape => shape.width
  | unary _ operand => ownWidth operand
  | binary op left right => if op.isComparison then 1 else max (ownWidth left) (ownWidth right)
  | slice _ start stop => stop - start
  | concat parts => ownTotal parts
  | mux _ whenSet whenClear => max (ownWidth whenSet) (ownWidth whenClear)

def ownTotal : List Expr → Nat
  | [] => 0
  | e :: rest => ownWidth e + ownTotal rest

end

/-- Verilog keeps an expression unsigned if a part of it is, negated or not. -/
def ownSigned : Expr → Bool
  | signal id => (shapeOf id).signed
  | const _ shape => shape.signed
  | unary _ operand => ownSigned operand
  | binary op left right => !op.isComparison && (ownSigned left && ownSigned right)
  | slice _ _ _ | concat _ => false
  | mux _ whenSet whenClear => ownSigned whenSet && ownSigned whenClear

mutual

/-- The bits of an expression in a context of this width and signedness. -/
def inContext : Expr → (n : Nat) → Bool → BitVec n
  | signal id, n, s => extend s ((shapeOf id).bits (ρ id)) n
  | const word shape, n, s => extend s (word.setWidth shape.width) n
  | unary op operand, n, s => op.apply (inContext operand n s)
  | binary op left right, n, s =>
    if op.isComparison then
      let m := max (ownWidth shapeOf left) (ownWidth shapeOf right)
      let both := ownSigned shapeOf left && ownSigned shapeOf right
      BitVec.ofNat n (op.relates (number both (inContext left m both))
        (number both (inContext right m both))).toNat
    else op.combine (inContext left n s) (inContext right n s)
  | slice operand start stop, n, _ =>
    ((inContext operand (shape shapeOf operand).width (ownSigned shapeOf operand)).extractLsb'
      start (stop - start)).setWidth n
  | concat parts, n, _ => BitVec.ofNat n (partsInContext parts)
  | mux condition whenSet whenClear, n, s =>
    if inContext condition (ownWidth shapeOf condition) (ownSigned shapeOf condition) = 0 then
      inContext whenClear n s
    else inContext whenSet n s

/-- Every part stands above what Verilog takes for the widths of the parts before it. -/
def partsInContext : List Expr → Nat
  | [] => 0
  | e :: rest => (inContext e (ownWidth shapeOf e) (ownSigned shapeOf e)).toNat +
      2 ^ ownWidth shapeOf e * partsInContext rest

end

/-- What a target of this width is given in the context of Verilog. -/
def assigned (e : Expr) (w : Nat) : BitVec w :=
  (inContext shapeOf ρ e (max w (ownWidth shapeOf e)) (ownSigned shapeOf e)).setWidth w

/-- Nothing is lost if a shape is read in a context. -/
def suits (shape : Shape) (n : Nat) (s : Bool) : Bool :=
  shape.signed == s || decide (n ≤ shape.width)

mutual

/-- In this context, every part of an expression has room for its result, or needs none. -/
def keeps : Expr → Nat → Bool → Bool
  | signal id, n, s => suits (shapeOf id) n s
  | const _ shape, n, s => suits shape n s
  | unary op operand, n, s => keeps operand n s &&
      (op.exact (shape shapeOf operand) || decide (n ≤ (shape shapeOf (unary op operand)).width))
  | binary op left right, n, s =>
    if op.isComparison then
      let m := max (ownWidth shapeOf left) (ownWidth shapeOf right)
      let both := ownSigned shapeOf left && ownSigned shapeOf right
      keeps left m both && keeps right m both &&
        (shape shapeOf left).fitsIn ⟨m, both⟩ && (shape shapeOf right).fitsIn ⟨m, both⟩
    else keeps left n s && keeps right n s &&
      (op.exact (shape shapeOf left) (shape shapeOf right) ||
        decide (n ≤ (shape shapeOf (binary op left right)).width))
  | slice operand _ _, _, _ =>
    keeps operand (shape shapeOf operand).width (ownSigned shapeOf operand)
  | concat parts, _, _ => partsKeep parts
  | mux condition whenSet whenClear, n, s =>
    decide (ownWidth shapeOf condition = (shape shapeOf condition).width) &&
      keeps condition (ownWidth shapeOf condition) (ownSigned shapeOf condition) &&
      keeps whenSet n s && keeps whenClear n s &&
      ((shape shapeOf whenSet).signed == (shape shapeOf whenClear).signed ||
        decide (n ≤ (shape shapeOf (mux condition whenSet whenClear)).width))

def partsKeep : List Expr → Bool
  | [] => true
  | e :: rest => decide (ownWidth shapeOf e = (shape shapeOf e).width) &&
      keeps e (ownWidth shapeOf e) (ownSigned shapeOf e) && partsKeep rest

end

end

section

variable {shapeOf : SignalId → Shape} {ρ : SignalId → Int}

theorem shape_unary (op : UnaryOp) (e : Expr) :
    (unary op e).shape shapeOf = op.result (e.shape shapeOf) := by
  cases op <;> simp only [shape, UnaryOp.result, Shape.signedBits]

theorem shape_binary {op : BinaryOp} (h : op.isComparison = false) (l r : Expr) :
    (binary op l r).shape shapeOf = op.result (l.shape shapeOf) (r.shape shapeOf) := by
  rw [shape, h]
  rfl

mutual

theorem ownWidth_le (e : Expr) : e.ownWidth shapeOf ≤ (e.shape shapeOf).width := by
  cases e with
  | signal id => exact Nat.le_refl _
  | const word shape => exact Nat.le_refl _
  | unary op operand =>
    have h := ownWidth_le operand
    rw [shape_unary, ownWidth]
    cases op with
    | not => exact h
    | neg => exact Nat.le_succ_of_le h
  | binary op left right =>
    have hl := ownWidth_le left
    have hr := ownWidth_le right
    cases hop : op.isComparison with
    | true => simp [ownWidth, shape, hop, Shape.bit, Shape.unsignedBits]
    | false =>
      rw [shape_binary hop, ownWidth, hop]
      simp only [Bool.false_eq_true, if_false, BinaryOp.result]
      omega
  | slice operand start stop => exact Nat.le_refl _
  | concat parts => exact ownTotal_le parts
  | mux condition whenSet whenClear =>
    have hs := ownWidth_le whenSet
    have hc := ownWidth_le whenClear
    simp only [ownWidth, shape]
    omega

theorem ownTotal_le (parts : List Expr) : ownTotal shapeOf parts ≤ totalWidth shapeOf parts := by
  cases parts with
  | nil => exact Nat.le_refl _
  | cons e rest => exact Nat.add_le_add (ownWidth_le e) (ownTotal_le rest)

end

theorem partsValue_lt (parts : List Expr) :
    partsValue shapeOf ρ parts < 2 ^ totalWidth shapeOf parts := by
  induction parts with
  | nil => exact Nat.one_pos
  | cons e rest ih =>
    let w := (e.shape shapeOf).width
    have lowest : ((e.shape shapeOf).bits (e.value shapeOf ρ)).toNat < 2 ^ w := BitVec.isLt _
    calc
      partsValue shapeOf ρ (e :: rest) < 2 ^ w + 2 ^ w * partsValue shapeOf ρ rest :=
        Nat.add_lt_add_right lowest _
      _ = 2 ^ w * (partsValue shapeOf ρ rest + 1) := by rw [Nat.mul_add, Nat.mul_one, Nat.add_comm]
      _ ≤ 2 ^ w * 2 ^ totalWidth shapeOf rest := Nat.mul_le_mul_left _ ih
      _ = 2 ^ totalWidth shapeOf (e :: rest) := (Nat.pow_add 2 w _).symm

/-- A value is one of its shape. -/
theorem value_holds (e : Expr) : (e.shape shapeOf).Holds (e.value shapeOf ρ) := by
  cases e with
  | signal id => exact Shape.holds_read _ _
  | const word shape => exact Shape.holds_number _ _
  | unary op operand => exact Shape.holds_number _ _
  | binary op left right =>
    cases hop : op.isComparison with
    | true =>
      rw [shape, value, hop, if_pos rfl, if_pos rfl]
      refine Shape.holds_unsigned.mpr ?_
      cases op.relates (value shapeOf ρ left) (value shapeOf ρ right) <;> decide
    | false =>
      rw [value, hop]
      exact Shape.holds_number _ _
  | slice operand start stop =>
    exact Shape.holds_number (.unsignedBits (stop - start)) _
  | concat parts =>
    have bound : partsValue shapeOf ρ parts < 2 ^ totalWidth shapeOf parts := partsValue_lt parts
    refine Shape.holds_unsigned.mpr ⟨Int.natCast_nonneg _, ?_⟩
    rw [value]
    exact_mod_cast bound
  | mux condition whenSet whenClear => exact Shape.holds_read _ _

theorem extend_of_suits {shape : Shape} {n : Nat} {s : Bool} (h : suits shape n s = true)
    (x : BitVec shape.width) : extend s x n = extend shape.signed x n := by
  simp only [suits, Bool.or_eq_true, beq_iff_eq, decide_eq_true_eq] at h
  rcases h with rfl | narrow
  · rfl
  · rw [extend_of_le _ narrow, extend_of_le _ narrow]

/-- The shape of a choice holds what is chosen, or the context is narrow. -/
theorem mux_fits {condition whenSet whenClear : Expr} {n : Nat}
    (fits : (whenSet.shape shapeOf).signed = (whenClear.shape shapeOf).signed ∨
      n ≤ ((mux condition whenSet whenClear).shape shapeOf).width) :
    ((mux condition whenSet whenClear).shape shapeOf).Holds
        (if condition.value shapeOf ρ = 0 then whenClear.value shapeOf ρ
          else whenSet.value shapeOf ρ) ∨
      n ≤ ((mux condition whenSet whenClear).shape shapeOf).width := by
  refine fits.imp_left fun same => ?_
  split
  · exact (value_holds whenClear).mono (by simp [shape, Shape.fitsIn, same])
  · exact (value_holds whenSet).mono (by simp [shape, Shape.fitsIn, same])

mutual

/-- Where an expression keeps its value, its bits in the context are those of the value. -/
theorem inContext_of_keeps (e : Expr) {n : Nat} {s : Bool} (h : e.keeps shapeOf n s = true) :
    e.inContext shapeOf ρ n s = BitVec.ofInt n (e.value shapeOf ρ) := by
  cases e with
  | signal id => exact extend_of_suits h _
  | const word shape => exact extend_of_suits h _
  | unary op operand =>
    rw [keeps, shape_unary, Bool.and_eq_true, Bool.or_eq_true, decide_eq_true_eq] at h
    obtain ⟨hoperand, fits⟩ := h
    rw [inContext, value, shape_unary, inContext_of_keeps operand hoperand]
    exact op.apply_ofInt (value_holds operand) fits
  | binary op left right =>
    cases hop : op.isComparison with
    | true =>
      simp only [keeps, hop, if_true, Bool.and_eq_true] at h
      obtain ⟨⟨⟨hl, hr⟩, fitsl⟩, fitsr⟩ := h
      have same : ∀ {e : Expr} {t : Shape}, (e.shape shapeOf).fitsIn t = true →
          number t.signed (BitVec.ofInt t.width (e.value shapeOf ρ)) = e.value shapeOf ρ :=
        fun fits => (value_holds _).mono fits
      simp only [inContext, value, hop, if_true, inContext_of_keeps left hl,
        inContext_of_keeps right hr, BitVec.ofInt_natCast]
      rw [same fitsl, same fitsr]
    | false =>
      rw [keeps, hop, shape_binary hop] at h
      simp only [Bool.false_eq_true, if_false, Bool.and_eq_true, Bool.or_eq_true,
        decide_eq_true_eq] at h
      obtain ⟨⟨hl, hr⟩, fits⟩ := h
      rw [inContext, value, hop, shape_binary hop]
      simp only [Bool.false_eq_true, if_false, inContext_of_keeps left hl,
        inContext_of_keeps right hr]
      exact op.combine_ofInt (value_holds left) (value_holds right) fits hop
  | slice operand start stop =>
    rw [inContext, value, inContext_of_keeps operand h, BitVec.ofInt_natCast, BitVec.ofNat_toNat]
    rfl
  | concat parts => rw [inContext, value, partsInContext_of_keeps parts h, BitVec.ofInt_natCast]
  | mux condition whenSet whenClear =>
    simp only [keeps, Bool.and_eq_true, Bool.or_eq_true, beq_iff_eq, decide_eq_true_eq] at h
    obtain ⟨⟨⟨⟨width, hc⟩, hs⟩, ho⟩, fits⟩ := h
    have zero : condition.inContext shapeOf ρ (condition.ownWidth shapeOf)
        (condition.ownSigned shapeOf) = 0 ↔ condition.value shapeOf ρ = 0 := by
      rw [inContext_of_keeps condition hc, width]
      exact Shape.bits_eq_zero (value_holds condition)
    simp only [inContext, value, zero, inContext_of_keeps whenSet hs,
      inContext_of_keeps whenClear ho]
    rw [Shape.ofInt_read (mux_fits fits), apply_ite (BitVec.ofInt n)]

theorem partsInContext_of_keeps (parts : List Expr) (h : partsKeep shapeOf parts = true) :
    partsInContext shapeOf ρ parts = partsValue shapeOf ρ parts := by
  cases parts with
  | nil => rfl
  | cons e rest =>
    simp only [partsKeep, Bool.and_eq_true, decide_eq_true_eq] at h
    obtain ⟨⟨width, he⟩, hrest⟩ := h
    rw [partsInContext, partsValue, inContext_of_keeps e he, partsInContext_of_keeps rest hrest,
      width]
    rfl

end

/-- Above a part that has a carry to lose, the places of both readings differ. Such a part
agrees only if its value is that narrow and nothing stands above it. -/
theorem partsInContext_eq_iff {e : Expr} {rest : List Expr}
    (narrow : e.ownWidth shapeOf < (e.shape shapeOf).width)
    (he : e.keeps shapeOf (e.ownWidth shapeOf) (e.ownSigned shapeOf) = true)
    (hrest : partsKeep shapeOf rest = true) :
    partsInContext shapeOf ρ (e :: rest) = partsValue shapeOf ρ (e :: rest) ↔
      ((e.shape shapeOf).bits (e.value shapeOf ρ)).toNat < 2 ^ e.ownWidth shapeOf ∧
        partsValue shapeOf ρ rest = 0 := by
  let x := ((e.shape shapeOf).bits (e.value shapeOf ρ)).toNat
  let k := 2 ^ e.ownWidth shapeOf
  let w := 2 ^ (e.shape shapeOf).width
  have wider : k < w := Nat.pow_lt_pow_right (by decide) narrow
  have lowest :
      (e.inContext shapeOf ρ (e.ownWidth shapeOf) (e.ownSigned shapeOf)).toNat = x % k := by
    rw [inContext_of_keeps e he, ← setWidth_ofInt (Nat.le_of_lt narrow), BitVec.toNat_setWidth]
    rfl
  rw [partsInContext, partsValue, lowest, partsInContext_of_keeps rest hrest]
  change x % k + k * partsValue shapeOf ρ rest = x + w * partsValue shapeOf ρ rest ↔ x < k ∧ _
  have places : k * partsValue shapeOf ρ rest ≤ w * partsValue shapeOf ρ rest :=
    Nat.mul_le_mul_right _ (Nat.le_of_lt wider)
  have less := Nat.mod_le x k
  constructor
  · intro same
    have whole : x % k = x := by omega
    have equal : k * partsValue shapeOf ρ rest = w * partsValue shapeOf ρ rest := by omega
    refine ⟨whole ▸ Nat.mod_lt x (Nat.two_pow_pos _), ?_⟩
    by_contra some
    exact absurd (Nat.eq_of_mul_eq_mul_right (Nat.pos_of_ne_zero some) equal) (Nat.ne_of_lt wider)
  · rintro ⟨small, none⟩
    rw [none, Nat.mod_eq_of_lt small]
    simp

theorem partsInContext_lt (parts : List Expr) :
    partsInContext shapeOf ρ parts < 2 ^ ownTotal shapeOf parts := by
  induction parts with
  | nil => exact Nat.one_pos
  | cons e rest ih =>
    let w := e.ownWidth shapeOf
    have lowest : (e.inContext shapeOf ρ w (e.ownSigned shapeOf)).toNat < 2 ^ w := BitVec.isLt _
    calc
      partsInContext shapeOf ρ (e :: rest) < 2 ^ w + 2 ^ w * partsInContext shapeOf ρ rest :=
        Nat.add_lt_add_right lowest _
      _ = 2 ^ w * (partsInContext shapeOf ρ rest + 1) := by
        rw [Nat.mul_add, Nat.mul_one, Nat.add_comm]
      _ ≤ 2 ^ w * 2 ^ ownTotal shapeOf rest := Nat.mul_le_mul_left _ ih
      _ = 2 ^ ownTotal shapeOf (e :: rest) := (Nat.pow_add 2 w _).symm

/-- Parts that keep their values leave those above them in their places. -/
theorem partsInContext_append_iff {lower parts : List Expr} (h : partsKeep shapeOf lower = true) :
    partsInContext shapeOf ρ (lower ++ parts) = partsValue shapeOf ρ (lower ++ parts) ↔
      partsInContext shapeOf ρ parts = partsValue shapeOf ρ parts := by
  induction lower with
  | nil => exact Iff.rfl
  | cons e rest ih =>
    simp only [partsKeep, Bool.and_eq_true, decide_eq_true_eq] at h
    obtain ⟨⟨width, he⟩, hrest⟩ := h
    have lowest : (e.inContext shapeOf ρ (e.ownWidth shapeOf) (e.ownSigned shapeOf)).toNat =
        ((e.shape shapeOf).bits (e.value shapeOf ρ)).toNat := by
      rw [inContext_of_keeps e he, width]
      rfl
    rw [← ih hrest, List.cons_append, partsInContext, partsValue, lowest, width,
      Nat.add_left_cancel_iff, Nat.mul_right_inj (Nat.two_pow_pos _).ne']

/-- A concatenation where one part has a carry to lose, and nothing else differs in Verilog. -/
structure Narrows (shapeOf : SignalId → Shape) (e : Expr) (lower : List Expr) (part : Expr)
    (higher : List Expr) : Prop where
  parts : e = .concat (lower ++ part :: higher)
  lower_keep : partsKeep shapeOf lower = true
  part_keeps : part.keeps shapeOf (part.ownWidth shapeOf) (part.ownSigned shapeOf) = true
  higher_keep : partsKeep shapeOf higher = true
  narrow : part.ownWidth shapeOf < (part.shape shapeOf).width

/-- A target that has room for all bits of a concatenation is given its value exactly if the
parts stand in their places. -/
theorem assigned_concat_iff {parts : List Expr} {w : Nat} (room : totalWidth shapeOf parts ≤ w) :
    (concat parts).assigned shapeOf ρ w = BitVec.ofInt w ((concat parts).value shapeOf ρ) ↔
      partsInContext shapeOf ρ parts = partsValue shapeOf ρ parts := by
  have written : partsInContext shapeOf ρ parts < 2 ^ w := calc
    _ < 2 ^ ownTotal shapeOf parts := partsInContext_lt parts
    _ ≤ 2 ^ w := Nat.pow_le_pow_right (by decide) ((ownTotal_le parts).trans room)
  have meant : partsValue shapeOf ρ parts < 2 ^ w := calc
    _ < 2 ^ totalWidth shapeOf parts := partsValue_lt parts
    _ ≤ 2 ^ w := Nat.pow_le_pow_right (by decide) room
  rw [assigned, inContext, value, BitVec.ofInt_natCast,
    BitVec.setWidth_ofNat_of_le (Nat.le_max_left _ _), ← BitVec.toNat_inj, BitVec.toNat_ofNat,
    BitVec.toNat_ofNat, Nat.mod_eq_of_lt written, Nat.mod_eq_of_lt meant]

/-- With a carry to lose, a concatenation is given its value only if the part that has it does
not need it and nothing stands above that part. -/
theorem Narrows.assigned_iff {e part : Expr} {lower higher : List Expr} {w : Nat}
    (h : e.Narrows shapeOf lower part higher) (room : (e.shape shapeOf).width ≤ w) :
    e.assigned shapeOf ρ w = BitVec.ofInt w (e.value shapeOf ρ) ↔
      ((part.shape shapeOf).bits (part.value shapeOf ρ)).toNat < 2 ^ part.ownWidth shapeOf ∧
        partsValue shapeOf ρ higher = 0 := by
  obtain ⟨rfl, lower_keep, part_keeps, higher_keep, narrow⟩ := h
  rw [assigned_concat_iff room, partsInContext_append_iff lower_keep,
    partsInContext_eq_iff narrow part_keeps higher_keep]

theorem assigned_of_keeps {e : Expr} {w : Nat}
    (h : e.keeps shapeOf (max w (e.ownWidth shapeOf)) (e.ownSigned shapeOf) = true) :
    e.assigned shapeOf ρ w = BitVec.ofInt w (e.value shapeOf ρ) := by
  rw [assigned, inContext_of_keeps e h]
  exact setWidth_ofInt (Nat.le_max_left _ _) _

end

end NetBridge.Guest.Expr
