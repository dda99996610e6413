import NetBridge.Guest.Lowering
import NetBridge.Proofs.Guest.Check
import NetBridge.Proofs.Verilog.Drivers
import NetBridge.Proofs.Verilog.Identifier

/-! # Names in lowered expressions

Lowering an expression adds temporaries with names of their own. What it writes mentions
the names of the signals that it reads and temporaries. -/
namespace NetBridge.Guest

namespace Expr

variable (shapeOf : SignalId → Shape) (nameOf : SignalId → String)

def lowered (e : Expr) (s : Scratch) : Verilog.Expr × Scratch := (e.lower shapeOf nameOf).run s

def loweredParts (parts : List Expr) (s : Scratch) : List Verilog.Expr × Scratch :=
  (lowerParts shapeOf nameOf parts).run s

/-- A name for a value, which is that of a signal or of a new temporary. -/
def based (e : Expr) (s : Scratch) : String × Scratch :=
  match e with
  | signal id => (nameOf id, s)
  | e => (temporary (e.shape shapeOf) (lowered shapeOf nameOf e s).1).run
    (lowered shapeOf nameOf e s).2

theorem lowered_signal (id : SignalId) (s : Scratch) :
    lowered shapeOf nameOf (.signal id) s = (.name (nameOf id), s) := rfl

theorem lowered_const (value : Word) (shape : Shape) (s : Scratch) :
    lowered shapeOf nameOf (.const value shape) s = (.literal value shape, s) := rfl

theorem lowered_unary (op : UnaryOp) (e : Expr) (s : Scratch) :
    lowered shapeOf nameOf (.unary op e) s =
      (.unary op (lowered shapeOf nameOf e s).1, (lowered shapeOf nameOf e s).2) := rfl

theorem lowered_binary (op : BinaryOp) (l r : Expr) (s : Scratch) :
    lowered shapeOf nameOf (.binary op l r) s =
      (.binary op (lowered shapeOf nameOf l s).1
        (lowered shapeOf nameOf r (lowered shapeOf nameOf l s).2).1,
        (lowered shapeOf nameOf r (lowered shapeOf nameOf l s).2).2) := rfl

theorem lowered_slice (value : Expr) (start stop : Nat) (s : Scratch) :
    lowered shapeOf nameOf (.slice value start stop) s =
      (select (based shapeOf nameOf value s).1 start stop, (based shapeOf nameOf value s).2) := by
  cases value <;> rfl

theorem based_of_ne_signal {e : Expr} (h : ∀ id, e ≠ .signal id) (s : Scratch) :
    based shapeOf nameOf e s = (temporary (e.shape shapeOf) (lowered shapeOf nameOf e s).1).run
      (lowered shapeOf nameOf e s).2 := by
  cases e with
  | signal id => exact absurd rfl (h id)
  | _ => rfl

theorem lowered_concat (parts : List Expr) (s : Scratch) :
    lowered shapeOf nameOf (.concat parts) s =
      (.concat (loweredParts shapeOf nameOf parts s).1,
        (loweredParts shapeOf nameOf parts s).2) := rfl

theorem lowered_mux (c t o : Expr) (s : Scratch) :
    lowered shapeOf nameOf (.mux c t o) s =
      let condition := lowered shapeOf nameOf c s
      let whenSet := lowered shapeOf nameOf t condition.2
      let whenClear := lowered shapeOf nameOf o whenSet.2
      (.conditional condition.1 whenSet.1 whenClear.1, whenClear.2) := rfl

theorem loweredParts_cons (e : Expr) (rest : List Expr) (s : Scratch) :
    loweredParts shapeOf nameOf (e :: rest) s =
      let higher := loweredParts shapeOf nameOf rest s
      let lowest := lowered shapeOf nameOf e higher.2
      (higher.1 ++ [lowest.1], lowest.2) := rfl

end Expr

/-- The scratch with one more temporary. -/
def Scratch.add (s : Scratch) (shape : Shape) (value : Verilog.Expr) : Scratch :=
  let name := Verilog.freshName s.taken temporaryName
  ⟨name :: s.taken, s.temporaries ++ [⟨name, shape, value⟩]⟩

theorem temporary_run (shape : Shape) (value : Verilog.Expr) (s : Scratch) :
    (temporary shape value).run s = (Verilog.freshName s.taken temporaryName, s.add shape value) :=
  rfl

section

variable (known : String → Prop)

/-- A name that may stand in what is written. -/
def Scratch.Knows (s : Scratch) (n : String) : Prop := known n ∨ n ∈ s.temporaries.map (·.name)

/-- Lowering adds temporaries, one after the other. The value of a temporary mentions
only names that are known before it. -/
inductive Scratch.Steps (s : Scratch) : Scratch → Prop
  | refl : Scratch.Steps s s
  | temporary {s' : Scratch} (shape : Shape) (value : Verilog.Expr) :
    Scratch.Steps s s' → 0 < shape.width → (∀ n ∈ value.names, s'.Knows known n) →
    Scratch.Steps s (s'.add shape value)

/-- What lowering writes, with what it makes of the scratch. -/
structure Scratch.Writes (s : Scratch) (names : List String) (s' : Scratch) : Prop where
  steps : s.Steps known s'
  names : ∀ n ∈ names, s'.Knows known n

end

namespace Scratch

variable {known : String → Prop} {s s' s'' : Scratch}

theorem Knows.add {n : String} (h : s.Knows known n) (shape : Shape) (value : Verilog.Expr) :
    (s.add shape value).Knows known n := by
  rcases h with h | h
  · exact Or.inl h
  · refine Or.inr ?_
    rw [Scratch.add, List.map_append]
    exact List.mem_append_left _ h

theorem Steps.trans (h : s.Steps known s') (h' : s'.Steps known s'') : s.Steps known s'' := by
  induction h' with
  | refl => exact h
  | temporary shape value _ positive names ih => exact .temporary shape value ih positive names

theorem Knows.mono {n : String} (h : s.Knows known n) (steps : s.Steps known s') :
    s'.Knows known n := by
  induction steps with
  | refl => exact h
  | temporary shape value _ _ _ ih => exact ih.add shape value

/-- What is written first stays known while the rest is written. -/
theorem Writes.append {l r : List String} (h : s.Writes known l s') (h' : s'.Writes known r s'') :
    s.Writes known (l ++ r) s'' := by
  refine ⟨h.steps.trans h'.steps, fun n hn => ?_⟩
  rcases List.mem_append.mp hn with hn | hn
  · exact (h.names n hn).mono h'.steps
  · exact h'.names n hn

theorem Writes.temporary {value : Verilog.Expr} {shape : Shape} (h : s.Writes known value.names s')
    (positive : 0 < shape.width) :
    s.Writes known [((temporary shape value).run s').1] ((temporary shape value).run s').2 := by
  rw [temporary_run]
  refine ⟨.temporary shape value h.steps positive h.names, fun n hn => ?_⟩
  obtain rfl := List.mem_singleton.mp hn
  exact Or.inr (by simp [Scratch.add])

end Scratch

theorem select_names (base : String) (start stop : Nat) :
    (select base start stop).names = [base] := by
  unfold select
  split <;> rfl

namespace Expr

variable {known : String → Prop} (shapeOf : SignalId → Shape) (nameOf : SignalId → String)

mutual

theorem lowered_writes (e : Expr) (s : Scratch) (wellFormed : e.WellFormed shapeOf)
    (reads : ∀ id ∈ e.reads, known (nameOf id)) :
    s.Writes known (lowered shapeOf nameOf e s).1.names (lowered shapeOf nameOf e s).2 := by
  cases e with
  | signal id =>
    refine ⟨.refl, fun n hn => Or.inl ?_⟩
    rw [lowered_signal, Verilog.Expr.names, List.mem_singleton] at hn
    rw [hn]
    exact reads id (by simp [Expr.reads])
  | const value shape =>
    refine ⟨.refl, fun n hn => ?_⟩
    rw [lowered_const, Verilog.Expr.names] at hn
    cases hn
  | unary op operand =>
    rw [lowered_unary]
    exact lowered_writes operand s wellFormed reads
  | binary op left right =>
    have hl := lowered_writes left s wellFormed.1 fun id hid => reads id (by simp [Expr.reads, hid])
    have hr := lowered_writes right (lowered shapeOf nameOf left s).2 wellFormed.2
      fun id hid => reads id (by simp [Expr.reads, hid])
    rw [lowered_binary]
    exact hl.append hr
  | slice value start stop =>
    rw [lowered_slice, select_names]
    by_cases hv : ∃ id, value = .signal id
    · obtain ⟨id, rfl⟩ := hv
      refine ⟨.refl, fun n hn => Or.inl ?_⟩
      rw [List.mem_singleton] at hn
      rw [hn]
      exact reads id (by simp [Expr.reads])
    · rw [based_of_ne_signal shapeOf nameOf (fun id h => hv ⟨id, h⟩)]
      have positive : 0 < (value.shape shapeOf).width := by
        have := wellFormed.2
        omega
      exact (lowered_writes value s wellFormed.1 reads).temporary positive
  | concat parts =>
    rw [lowered_concat]
    exact loweredParts_writes parts s wellFormed reads
  | mux condition whenSet whenClear =>
    obtain ⟨wc, ws, wo⟩ := wellFormed
    have hc := lowered_writes condition s wc fun id hid => reads id (by simp [Expr.reads, hid])
    have hs := lowered_writes whenSet (lowered shapeOf nameOf condition s).2 ws
      fun id hid => reads id (by simp [Expr.reads, hid])
    have ho := lowered_writes whenClear
      (lowered shapeOf nameOf whenSet (lowered shapeOf nameOf condition s).2).2 wo
      fun id hid => reads id (by simp [Expr.reads, hid])
    rw [lowered_mux]
    exact (hc.append hs).append ho

theorem loweredParts_writes (parts : List Expr) (s : Scratch)
    (wellFormed : Expr.PartsWellFormed shapeOf parts)
    (reads : ∀ id ∈ Expr.readsParts parts, known (nameOf id)) :
    s.Writes known (Verilog.Expr.namesOfParts (loweredParts shapeOf nameOf parts s).1)
      (loweredParts shapeOf nameOf parts s).2 := by
  cases parts with
  | nil => exact ⟨.refl, fun n hn => by cases hn⟩
  | cons e rest =>
    have hr := loweredParts_writes rest s wellFormed.2
      fun id hid => reads id (by simp [Expr.readsParts, hid])
    have he := lowered_writes e (loweredParts shapeOf nameOf rest s).2 wellFormed.1
      fun id hid => reads id (by simp [Expr.readsParts, hid])
    rw [loweredParts_cons, Verilog.Expr.namesOfParts_append]
    simpa [Verilog.Expr.namesOfParts] using hr.append he

end

end Expr

end NetBridge.Guest
