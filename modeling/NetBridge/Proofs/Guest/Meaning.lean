import NetBridge.Proofs.Guest.Lowering
import NetBridge.Proofs.Guest.Value
import NetBridge.Proofs.Verilog.Semantics

/-! # What lowered expressions mean

The Verilog expression for a guest expression has the bits that the guest expression has
in the same context, if every temporary has what is assigned to it. -/
namespace NetBridge.Guest

/-- The net of a temporary has its shape and what is assigned to it. -/
structure Temporary.Held (shapes : String → Shape) (env : String → Int) (t : Temporary) : Prop where
  shape : shapes t.name = t.shape
  settled : Verilog.Assign.Settled shapes env ⟨t.name, t.value⟩

theorem Scratch.Steps.mem_temporaries {known : String → Prop} {s s' : Scratch}
    (h : s.Steps known s') {t : Temporary} (ht : t ∈ s.temporaries) : t ∈ s'.temporaries := by
  induction h with
  | refl => exact ht
  | temporary shape value _ _ _ ih => exact List.mem_append_left _ ih

namespace Expr

section

variable {shapeOf : SignalId → Shape} (nameOf : SignalId → String)

/-- Lowering keeps the temporaries. -/
theorem lowered_keeps {e : Expr} (wellFormed : e.WellFormed shapeOf) (s : Scratch) {t : Temporary}
    (ht : t ∈ s.temporaries) : t ∈ (lowered shapeOf nameOf e s).2.temporaries := by
  have writes : s.Writes (fun _ => True) _ _ :=
    lowered_writes shapeOf nameOf e s wellFormed fun _ _ => trivial
  exact writes.steps.mem_temporaries ht

end

section

variable (shapeOf : SignalId → Shape) (ρ : SignalId → Int) (shapes : String → Shape)
  (env : String → Int)

/-- A Verilog expression is sized like a guest expression, and in every context it has the
bits that the guest expression has there. -/
structure Means (e : Expr) (v : Verilog.Expr) : Prop where
  width : v.width shapes = e.ownWidth shapeOf
  signed : v.signed shapes = e.ownSigned shapeOf
  eval : ∀ n s, v.eval shapes env n s = e.inContext shapeOf ρ n s

/-- Verilog parts, the highest ones first, for guest parts. -/
structure PartsMean (parts : List Expr) (vs : List Verilog.Expr) : Prop where
  width : Verilog.Expr.partsWidth shapes vs = ownTotal shapeOf parts
  eval : Verilog.Expr.partsEval shapes env vs = partsInContext shapeOf ρ parts

/-- A net that has the bits of an expression in the context of its shape. -/
structure Carries (e : Expr) (base : String) : Prop where
  shape : shapes base = e.shape shapeOf
  bits : (e.shape shapeOf).bits (env base) =
    e.inContext shapeOf ρ (e.shape shapeOf).width (e.ownSigned shapeOf)

/-- A name stands for a signal if its net has the shape and the number of the signal. -/
def StandsFor (nameOf : SignalId → String) (id : SignalId) : Prop :=
  shapes (nameOf id) = shapeOf id ∧ env (nameOf id) = ρ id

end

variable {shapeOf : SignalId → Shape} {ρ : SignalId → Int} {shapes : String → Shape}
  {env : String → Int} {nameOf : SignalId → String}

namespace Means

theorem signal {id : SignalId} (h : StandsFor shapeOf ρ shapes env nameOf id) :
    Means shapeOf ρ shapes env (.signal id) (.name (nameOf id)) := by
  refine ⟨?_, ?_, fun n s => ?_⟩
  · rw [Verilog.Expr.width, ownWidth, h.1]
  · rw [Verilog.Expr.signed, ownSigned, h.1]
  · rw [Verilog.Expr.eval, inContext, h.1, h.2]

theorem const (value : Word) (shape : Shape) :
    Means shapeOf ρ shapes env (.const value shape) (.literal value shape) :=
  ⟨rfl, rfl, fun _ _ => rfl⟩

theorem unary (op : UnaryOp) {e : Expr} {v : Verilog.Expr} (h : Means shapeOf ρ shapes env e v) :
    Means shapeOf ρ shapes env (.unary op e) (.unary op v) := by
  refine ⟨h.width, h.signed, fun n s => ?_⟩
  rw [Verilog.Expr.eval, inContext, h.eval]

theorem binary (op : BinaryOp) {l r : Expr} {vl vr : Verilog.Expr}
    (hl : Means shapeOf ρ shapes env l vl) (hr : Means shapeOf ρ shapes env r vr) :
    Means shapeOf ρ shapes env (.binary op l r) (.binary op vl vr) := by
  refine ⟨?_, ?_, fun n s => ?_⟩
  · rw [Verilog.Expr.width, ownWidth, hl.width, hr.width]
  · rw [Verilog.Expr.signed, ownSigned, hl.signed, hr.signed]
  · rw [Verilog.Expr.eval, inContext, hl.width, hr.width, hl.signed, hr.signed]
    simp only [hl.eval, hr.eval]

theorem mux {c t o : Expr} {vc vt vo : Verilog.Expr} (hc : Means shapeOf ρ shapes env c vc)
    (ht : Means shapeOf ρ shapes env t vt) (ho : Means shapeOf ρ shapes env o vo) :
    Means shapeOf ρ shapes env (.mux c t o) (.conditional vc vt vo) := by
  refine ⟨?_, ?_, fun n s => ?_⟩
  · rw [Verilog.Expr.width, ownWidth, ht.width, ho.width]
  · rw [Verilog.Expr.signed, ownSigned, ht.signed, ho.signed]
  · rw [Verilog.Expr.eval, inContext, hc.width, hc.signed]
    simp only [hc.eval, ht.eval, ho.eval]

theorem concat {parts : List Expr} {vs : List Verilog.Expr}
    (h : PartsMean shapeOf ρ shapes env parts vs) :
    Means shapeOf ρ shapes env (.concat parts) (.concat vs) := by
  refine ⟨h.width, rfl, fun n s => ?_⟩
  rw [Verilog.Expr.eval, inContext, h.eval]

theorem slice {e : Expr} {base : String} (h : Carries shapeOf ρ shapes env e base)
    {start stop : Nat} (range : start < stop) :
    Means shapeOf ρ shapes env (.slice e start stop) (select base start stop) := by
  unfold select
  split
  · rename_i one
    refine ⟨one.symm, rfl, fun n s => ?_⟩
    rw [Verilog.Expr.eval, inContext, h.shape, h.bits, one]
  · have width : stop - 1 + 1 - start = stop - start := by omega
    refine ⟨width, rfl, fun n s => ?_⟩
    rw [Verilog.Expr.eval, inContext, h.shape, h.bits, width]

/-- A target is given the same. -/
theorem assigned {e : Expr} {v : Verilog.Expr} (h : Means shapeOf ρ shapes env e v) (w : Nat) :
    v.assigned shapes env w = e.assigned shapeOf ρ w := by
  rw [Verilog.Expr.assigned, Expr.assigned, h.width, h.signed, h.eval]

end Means

theorem PartsMean.cons {e : Expr} {rest : List Expr} {v : Verilog.Expr} {vs : List Verilog.Expr}
    (he : Means shapeOf ρ shapes env e v) (hrest : PartsMean shapeOf ρ shapes env rest vs) :
    PartsMean shapeOf ρ shapes env (e :: rest) (vs ++ [v]) := by
  have single : Verilog.Expr.partsEval shapes env [v] =
      (e.inContext shapeOf ρ (e.ownWidth shapeOf) (e.ownSigned shapeOf)).toNat := by
    rw [Verilog.Expr.partsEval, Verilog.Expr.partsEval, Verilog.Expr.partsWidth, he.width,
      he.signed, he.eval, Nat.pow_zero, Nat.mul_one, Nat.add_zero]
  have width : Verilog.Expr.partsWidth shapes [v] = e.ownWidth shapeOf := he.width
  constructor
  · rw [Verilog.Expr.partsWidth_append, hrest.width, width, ownTotal, Nat.add_comm]
  · rw [Verilog.Expr.partsEval_append, hrest.eval, single, width, partsInContext, Nat.add_comm,
      Nat.mul_comm]

theorem Carries.signal {id : SignalId} (h : StandsFor shapeOf ρ shapes env nameOf id) :
    Carries shapeOf ρ shapes env (.signal id) (nameOf id) := by
  refine ⟨h.1, ?_⟩
  rw [inContext, h.2]
  exact (extend_self _ _).symm

/-- A temporary carries the expression that it is assigned. -/
theorem Carries.temporary {e : Expr} {t : Temporary} (held : t.Held shapes env)
    (shape : t.shape = e.shape shapeOf) (h : Means shapeOf ρ shapes env e t.value) :
    Carries shapeOf ρ shapes env e t.name := by
  have declared : shapes t.name = e.shape shapeOf := held.shape.trans shape
  have wide : max (e.shape shapeOf).width (e.ownWidth shapeOf) = (e.shape shapeOf).width :=
    Nat.max_eq_left (ownWidth_le e)
  have settled := held.settled
  rw [Verilog.Assign.Settled, Verilog.Expr.assigned] at settled
  rw [declared, h.width, h.signed, h.eval, wide, BitVec.setWidth_eq] at settled
  exact ⟨declared, settled⟩

mutual

theorem lowered_means (e : Expr) (s : Scratch) (wellFormed : e.WellFormed shapeOf)
    (reads : ∀ id ∈ e.reads, StandsFor shapeOf ρ shapes env nameOf id)
    (held : ∀ t ∈ (lowered shapeOf nameOf e s).2.temporaries, t.Held shapes env) :
    Means shapeOf ρ shapes env e (lowered shapeOf nameOf e s).1 := by
  cases e with
  | signal id => exact .signal (reads id (by simp [Expr.reads]))
  | const value shape => exact .const value shape
  | unary op operand => exact .unary op (lowered_means operand s wellFormed reads held)
  | binary op left right =>
    obtain ⟨wl, wr⟩ := wellFormed
    have hl := lowered_means left s wl (fun id hid => reads id (by simp [Expr.reads, hid]))
      fun t ht => held t (lowered_keeps nameOf wr _ ht)
    have hr := lowered_means right _ wr (fun id hid => reads id (by simp [Expr.reads, hid])) held
    exact .binary op hl hr
  | slice value start stop =>
    have base : Carries shapeOf ρ shapes env value (based shapeOf nameOf value s).1 := by
      rw [lowered_slice] at held
      by_cases hv : ∃ id, value = .signal id
      · obtain ⟨id, rfl⟩ := hv
        exact .signal (reads id (by simp [Expr.reads]))
      · rw [based_of_ne_signal shapeOf nameOf (fun id h => hv ⟨id, h⟩), temporary_run] at held ⊢
        have means := lowered_means value s wellFormed.1 reads
          fun t ht => held t (List.mem_append_left _ ht)
        have last := held _ (List.mem_append_right _ (List.mem_singleton.mpr rfl))
        exact .temporary last rfl means
    rw [lowered_slice]
    exact .slice base wellFormed.2.1
  | concat parts => exact .concat (loweredParts_mean parts s wellFormed reads held)
  | mux condition whenSet whenClear =>
    obtain ⟨wc, ws, wo⟩ := wellFormed
    have hc := lowered_means condition s wc (fun id hid => reads id (by simp [Expr.reads, hid]))
      fun t ht => held t (lowered_keeps nameOf wo _ (lowered_keeps nameOf ws _ ht))
    have hs := lowered_means whenSet _ ws (fun id hid => reads id (by simp [Expr.reads, hid]))
      fun t ht => held t (lowered_keeps nameOf wo _ ht)
    have ho := lowered_means whenClear _ wo (fun id hid => reads id (by simp [Expr.reads, hid]))
      held
    exact .mux hc hs ho

theorem loweredParts_mean (parts : List Expr) (s : Scratch)
    (wellFormed : PartsWellFormed shapeOf parts)
    (reads : ∀ id ∈ readsParts parts, StandsFor shapeOf ρ shapes env nameOf id)
    (held : ∀ t ∈ (loweredParts shapeOf nameOf parts s).2.temporaries, t.Held shapes env) :
    PartsMean shapeOf ρ shapes env parts (loweredParts shapeOf nameOf parts s).1 := by
  cases parts with
  | nil => exact ⟨rfl, rfl⟩
  | cons e rest =>
    have hrest := loweredParts_mean rest s wellFormed.2
      (fun id hid => reads id (by simp [readsParts, hid]))
      fun t ht => held t (lowered_keeps nameOf wellFormed.1 _ ht)
    have he := lowered_means e _ wellFormed.1
      (fun id hid => reads id (by simp [readsParts, hid])) held
    exact .cons he hrest

end

end Expr

end NetBridge.Guest
