import NetBridge.Guest.Netlist

/-! # Parts of expressions

Every expression that occurs in an expression, the slices among them, and what the parts
have in common with the whole. An expression whose signals are allocated and whose widths
fit can be measured. -/
namespace NetBridge.Guest

/-- Bits `start` up to but not including `stop` of a value. -/
structure Slice where
  value : Expr
  start : Nat
  stop : Nat

namespace Expr

mutual

/-- The expressions that occur in an expression, it being the last of them. Operands
stand before what they are operands of. -/
def subterms : Expr → List Expr
  | signal id => [signal id]
  | const value shape => [const value shape]
  | unary op operand => subterms operand ++ [unary op operand]
  | binary op left right => subterms left ++ (subterms right ++ [binary op left right])
  | slice value start stop => subterms value ++ [slice value start stop]
  | concat parts => subtermsOfParts parts ++ [concat parts]
  | mux select whenSet whenClear =>
    subterms select ++ (subterms whenSet ++ (subterms whenClear ++ [mux select whenSet whenClear]))

def subtermsOfParts : List Expr → List Expr
  | [] => []
  | e :: rest => subterms e ++ subtermsOfParts rest

end

/-- The expressions right below an expression. -/
def operands : Expr → List Expr
  | signal _ => []
  | const _ _ => []
  | unary _ operand => [operand]
  | binary _ left right => [left, right]
  | slice value _ _ => [value]
  | concat parts => parts
  | mux select whenSet whenClear => [select, whenSet, whenClear]

theorem subtermsOfParts_eq (parts : List Expr) :
    subtermsOfParts parts = parts.flatMap subterms := by
  induction parts with
  | nil => rfl
  | cons e rest ih => rw [subtermsOfParts, ih, List.flatMap_cons]

theorem subterms_eq (e : Expr) : e.subterms = e.operands.flatMap subterms ++ [e] := by
  cases e with
  | concat parts => rw [subterms, subtermsOfParts_eq, operands]
  | _ => simp [subterms, operands]

theorem sizeOf_operand {e o : Expr} (h : o ∈ e.operands) : sizeOf o < sizeOf e := by
  cases e with
  | signal _ => cases h
  | const _ _ => cases h
  | concat parts =>
    have inside : sizeOf o < sizeOf parts := List.sizeOf_lt_of_mem h
    simp only [concat.sizeOf_spec]
    omega
  | _ =>
    simp only [operands, List.mem_cons, List.not_mem_nil, or_false] at h
    grind

/-- What operands inherit, all parts of an expression inherit. -/
theorem inherited {P : Expr → Prop} (step : ∀ e, P e → ∀ o ∈ e.operands, P o) (e : Expr)
    (h : P e) : ∀ p ∈ e.subterms, P p := by
  rw [subterms_eq]
  refine List.forall_mem_append.mpr ⟨fun p hp => ?_, List.forall_mem_singleton.mpr h⟩
  obtain ⟨o, ho, hp⟩ := List.mem_flatMap.mp hp
  exact inherited step o (step e h o ho) p hp
termination_by e
decreasing_by exact sizeOf_operand ho

def slice? : Expr → Option Slice
  | slice value start stop => some ⟨value, start, stop⟩
  | _ => none

/-- The slices in an expression, at any depth. -/
def slices (e : Expr) : List Slice := e.subterms.filterMap slice?

def slicesOfParts (parts : List Expr) : List Slice := (subtermsOfParts parts).filterMap slice?

theorem slices_unary (op : UnaryOp) (e : Expr) : (unary op e).slices = e.slices := by
  simp [slices, subterms, List.filterMap_cons, slice?]

theorem slices_binary (op : BinaryOp) (l r : Expr) :
    (binary op l r).slices = l.slices ++ r.slices := by
  simp [slices, subterms, List.filterMap_cons, slice?]

theorem slices_slice (value : Expr) (start stop : Nat) :
    (slice value start stop).slices = value.slices ++ [⟨value, start, stop⟩] := by
  simp [slices, subterms, slice?]

theorem slices_concat (parts : List Expr) : (concat parts).slices = slicesOfParts parts := by
  simp [slices, slicesOfParts, subterms, List.filterMap_cons, slice?]

theorem slicesOfParts_cons (e : Expr) (rest : List Expr) :
    slicesOfParts (e :: rest) = e.slices ++ slicesOfParts rest := by
  simp [slices, slicesOfParts, subtermsOfParts]

theorem slices_mux (c s o : Expr) :
    (mux c s o).slices = c.slices ++ (s.slices ++ o.slices) := by
  simp [slices, subterms, List.filterMap_cons, slice?]

theorem mem_slices {e : Expr} {s : Slice} :
    s ∈ e.slices ↔ slice s.value s.start s.stop ∈ e.subterms := by
  rw [slices, List.mem_filterMap]
  constructor
  · rintro ⟨p, hp, hs⟩
    cases p with
    | slice value start stop =>
      obtain rfl := Option.some.inj hs
      exact hp
    | _ => cases hs
  · exact fun h => ⟨_, h, rfl⟩

theorem readsParts_eq (parts : List Expr) : readsParts parts = parts.flatMap reads := by
  induction parts with
  | nil => rfl
  | cons e rest ih => rw [readsParts, ih, List.flatMap_cons]

theorem reads_operand {e o : Expr} (h : o ∈ e.operands) : ∀ id ∈ o.reads, id ∈ e.reads := by
  intro id hid
  cases e with
  | signal _ => cases h
  | const _ _ => cases h
  | concat parts =>
    rw [reads, readsParts_eq]
    exact List.mem_flatMap.mpr ⟨o, h, hid⟩
  | _ =>
    simp only [operands, List.mem_cons, List.not_mem_nil, or_false] at h
    simp only [reads, List.mem_append]
    grind

/-- A part of an expression reads what the expression reads. -/
theorem reads_subterm {e p : Expr} (h : p ∈ e.subterms) : ∀ id ∈ p.reads, id ∈ e.reads := by
  let P (p : Expr) : Prop := ∀ id ∈ p.reads, id ∈ e.reads
  have step : ∀ e, P e → ∀ o ∈ e.operands, P o :=
    fun _ inside _ ho id hid => inside id (reads_operand ho id hid)
  exact inherited step e (fun _ hid => hid) p h

mutual

/-- The shape of an expression depends on signals that it reads. -/
theorem mem_reads_of_mem_sized (e : Expr) {id : SignalId} (h : id ∈ e.sized) : id ∈ e.reads := by
  cases e with
  | signal i => exact h
  | const value shape => exact h
  | unary op operand => exact mem_reads_of_mem_sized operand h
  | binary op left right =>
    rw [sized] at h
    split at h
    · cases h
    · rw [reads, List.mem_append]
      exact (List.mem_append.mp h).imp (mem_reads_of_mem_sized left) (mem_reads_of_mem_sized right)
  | slice value start stop => cases h
  | concat parts => exact mem_readsParts_of_mem_sizedParts parts h
  | mux select whenSet whenClear =>
    rw [reads, List.append_assoc, List.mem_append, List.mem_append]
    exact Or.inr ((List.mem_append.mp h).imp (mem_reads_of_mem_sized whenSet)
      (mem_reads_of_mem_sized whenClear))

theorem mem_readsParts_of_mem_sizedParts (parts : List Expr) {id : SignalId}
    (h : id ∈ sizedParts parts) : id ∈ readsParts parts := by
  cases parts with
  | nil => exact h
  | cons e rest =>
    rw [readsParts, List.mem_append]
    exact (List.mem_append.mp h).imp (mem_reads_of_mem_sized e)
      (mem_readsParts_of_mem_sizedParts rest)

end

end Expr

namespace Netlist

/-- An expression over allocated signals whose widths fit has a shape. -/
theorem measure_eq {m : Netlist} {e : Expr}
    (allocated : ∀ id ∈ e.reads, m.signals.contains id = true) (fits : e.fits m.shapeOf = true) :
    m.measure e = .ok (e.shape m.shapeOf) := by
  have none : e.sized.find? (fun id => !m.signals.contains id) = none :=
    List.find?_eq_none.mpr fun id hid => by
      simp [allocated id (Expr.mem_reads_of_mem_sized e hid)]
  rw [measure, none]
  exact if_pos fits

end Netlist

end NetBridge.Guest
