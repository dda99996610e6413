import NetBridge.Proofs.Guest.Selection
import NetBridge.Proofs.Guest.Value
import NetBridge.Proofs.Verilog.Size

/-! # Sizes in generated modules

Everything that is declared has a width. The literals and the parts of concatenations in a
module are sized like those in the statements, and an expression that passed the checks can
only have a part without a width if it has a constant without one. -/
namespace NetBridge.Guest

open Verilog (Module sizesOf)

namespace Expr

def constant? : Expr → Option Shape
  | const _ shape => some shape
  | _ => none

/-- The shapes of the constants in an expression, at any depth. -/
def constants (e : Expr) : List Shape := e.subterms.filterMap constant?

theorem mem_constants {e : Expr} {c : Shape} :
    c ∈ e.constants ↔ ∃ value, const value c ∈ e.subterms := by
  rw [constants, List.mem_filterMap]
  constructor
  · rintro ⟨p, hp, hc⟩
    cases p with
    | const value shape =>
      obtain rfl := Option.some.inj hc
      exact ⟨value, hp⟩
    | _ => cases hc
  · exact fun ⟨_, h⟩ => ⟨_, h, rfl⟩

theorem subterms_operand {e o : Expr} (h : o ∈ e.operands) : o.subterms ⊆ e.subterms := by
  intro p hp
  rw [subterms_eq]
  exact List.mem_append_left _ (List.mem_flatMap.mpr ⟨o, h, hp⟩)

theorem mem_subterms_self (e : Expr) : e ∈ e.subterms := by
  rw [subterms_eq]
  exact List.mem_append_right _ (List.mem_singleton.mpr rfl)

theorem constants_operand {e o : Expr} (h : o ∈ e.operands) : o.constants ⊆ e.constants := by
  intro c hc
  obtain ⟨value, hmem⟩ := mem_constants.mp hc
  exact mem_constants.mpr ⟨value, subterms_operand h hmem⟩

section

variable (shapeOf : SignalId → Shape)

/-- What Verilog sizes in an expression, apart from its operands: a constant, or the parts
of a concatenation. -/
def topSizes : Expr → List Nat
  | const _ shape => [shape.width]
  | concat parts => parts.map (ownWidth shapeOf)
  | _ => []

/-- The sizes that Verilog gives the constants and the parts of concatenations. -/
def ownSizes (e : Expr) : List Nat := e.subterms.flatMap (topSizes shapeOf)

def ownSizesOfParts (parts : List Expr) : List Nat :=
  (subtermsOfParts parts).flatMap (topSizes shapeOf)

variable {shapeOf}

theorem ownSizes_unary (op : UnaryOp) (e : Expr) :
    (unary op e).ownSizes shapeOf = e.ownSizes shapeOf := by
  simp [ownSizes, subterms, topSizes]

theorem ownSizes_binary (op : BinaryOp) (l r : Expr) :
    (binary op l r).ownSizes shapeOf = l.ownSizes shapeOf ++ r.ownSizes shapeOf := by
  simp [ownSizes, subterms, topSizes]

theorem ownSizes_slice (value : Expr) (start stop : Nat) :
    (slice value start stop).ownSizes shapeOf = value.ownSizes shapeOf := by
  simp [ownSizes, subterms, topSizes]

theorem ownSizes_concat (parts : List Expr) : (concat parts).ownSizes shapeOf =
    ownSizesOfParts shapeOf parts ++ parts.map (ownWidth shapeOf) := by
  simp [ownSizes, ownSizesOfParts, subterms, topSizes]

theorem ownSizesOfParts_cons (e : Expr) (rest : List Expr) :
    ownSizesOfParts shapeOf (e :: rest) = e.ownSizes shapeOf ++ ownSizesOfParts shapeOf rest := by
  simp [ownSizes, ownSizesOfParts, subtermsOfParts]

theorem ownSizes_mux (c s o : Expr) : (mux c s o).ownSizes shapeOf =
    c.ownSizes shapeOf ++ (s.ownSizes shapeOf ++ o.ownSizes shapeOf) := by
  simp [ownSizes, subterms, topSizes]

end

end Expr

namespace Netlist

section

variable {m : Netlist} {target : SignalId} {e : Expr}

theorem checkParts_iff {parts : List Expr} : m.checkParts target parts = .ok () ↔
    ∀ e ∈ parts, m.checkExpr target e = .ok () := by
  induction parts with
  | nil => simp [checkParts]
  | cons e rest ih => rw [checkParts, andThen_ok, ih, List.forall_mem_cons]

/-- The check of an expression checks its operands. -/
theorem checkExpr_operand (h : m.checkExpr target e = .ok ()) {o : Expr} (ho : o ∈ e.operands) :
    m.checkExpr target o = .ok () := by
  cases e with
  | signal id => cases ho
  | const value shape => cases ho
  | unary op operand =>
    obtain rfl := List.mem_singleton.mp ho
    exact h
  | binary op left right =>
    obtain ⟨hl, hr⟩ := andThen_ok.mp h
    simp only [Expr.operands, List.mem_cons, List.not_mem_nil, or_false] at ho
    rcases ho with rfl | rfl <;> assumption
  | slice value start stop =>
    obtain rfl := List.mem_singleton.mp ho
    exact (andThen_ok.mp h).1
  | concat parts =>
    cases parts with
    | nil => cases ho
    | cons first rest =>
      have parts : m.checkParts target (first :: rest) = .ok () := h
      exact checkParts_iff.mp parts o ho
  | mux select whenSet whenClear =>
    obtain ⟨hc, h⟩ := andThen_ok.mp h
    obtain ⟨hs, ho'⟩ := andThen_ok.mp h
    simp only [Expr.operands, List.mem_cons, List.not_mem_nil, or_false] at ho
    rcases ho with rfl | rfl | rfl <;> assumption

theorem checkExpr_concat_nil : m.checkExpr target (.concat []) ≠ .ok () := by
  rw [checkExpr]
  intro h
  cases hs : m.signal target <;> rw [hs] at h <;> cases h

/-- An expression that passed the check over signals that have a width. -/
structure Checked (m : Netlist) (target : SignalId) (e : Expr) : Prop where
  passed : m.checkExpr target e = .ok ()
  reads : ∀ id ∈ e.reads, 0 < (m.shapeOf id).width

theorem Checked.operand (h : m.Checked target e) {o : Expr} (ho : o ∈ e.operands) :
    m.Checked target o :=
  ⟨checkExpr_operand h.passed ho, fun id hid => h.reads id (Expr.reads_operand ho id hid)⟩

/-- Without a constant that has no width, nothing has none. -/
theorem Checked.ownWidth_pos {e : Expr} (h : m.Checked target e)
    (constants : ∀ c ∈ e.constants, 0 < c.width) : 0 < e.ownWidth m.shapeOf := by
  have below : ∀ o ∈ e.operands, 0 < o.ownWidth m.shapeOf := fun o ho =>
    (h.operand ho).ownWidth_pos fun c hc => constants c (Expr.constants_operand ho hc)
  cases e with
  | signal id => exact h.reads id (by simp [Expr.reads])
  | const value shape =>
    exact constants shape (Expr.mem_constants.mpr ⟨value, Expr.mem_subterms_self _⟩)
  | unary op operand => exact below operand (by simp [Expr.operands])
  | binary op left right =>
    have hl := below left (by simp [Expr.operands])
    rw [Expr.ownWidth]
    split
    · exact Nat.one_pos
    · exact Nat.lt_of_lt_of_le hl (Nat.le_max_left _ _)
  | slice value start stop => exact Nat.sub_pos_of_lt (checkExpr_ok _ h.passed).2.1
  | concat parts =>
    cases parts with
    | nil => exact absurd h.passed checkExpr_concat_nil
    | cons first rest => exact Nat.add_pos_left (below first (by simp [Expr.operands])) _
  | mux select whenSet whenClear =>
    have hs := below whenSet (by simp [Expr.operands])
    exact Nat.lt_of_lt_of_le hs (Nat.le_max_left _ _)
termination_by e
decreasing_by exact Expr.sizeOf_operand ho

/-- What can be said of all parts of an expression without a constant of no width. -/
theorem Checked.parts (h : m.Checked target e) (constants : ∀ c ∈ e.constants, 0 < c.width) :
    ∀ p ∈ e.subterms, m.Checked target p ∧ ∀ c ∈ p.constants, 0 < c.width := by
  refine Expr.inherited (P := fun p => m.Checked target p ∧ ∀ c ∈ p.constants, 0 < c.width)
    (fun p hp o ho => ⟨hp.1.operand ho, fun c hc => ?_⟩) e ⟨h, constants⟩
  exact hp.2 c (Expr.constants_operand ho hc)

/-- Widths are numbers of 32 bits, so the width of a part is only what is written here where its
sums stay within them. -/
theorem Checked.widths_positive_iff (h : m.Checked target e) :
    (∀ p ∈ e.subterms, p.fits m.shapeOf = true → 0 < (p.shape m.shapeOf).width) ↔
      ∀ c ∈ e.constants, 0 < c.width := by
  constructor
  · intro positive c hc
    obtain ⟨value, hmem⟩ := Expr.mem_constants.mp hc
    exact positive _ hmem rfl
  · intro constants p hp _
    obtain ⟨checked, positive⟩ := h.parts constants p hp
    exact Nat.lt_of_lt_of_le (checked.ownWidth_pos positive) (Expr.ownWidth_le p)

theorem Checked.ownSizes_positive_iff (h : m.Checked target e) :
    (∀ n ∈ e.ownSizes m.shapeOf, 0 < n) ↔ ∀ c ∈ e.constants, 0 < c.width := by
  rw [Expr.ownSizes, List.forall_mem_flatMap]
  constructor
  · intro positive c hc
    obtain ⟨value, hmem⟩ := Expr.mem_constants.mp hc
    exact positive _ hmem c.width (List.mem_singleton.mpr rfl)
  · intro constants p hp n hn
    obtain ⟨checked, positive⟩ := h.parts constants p hp
    cases p with
    | const value shape =>
      obtain rfl := List.mem_singleton.mp hn
      exact positive shape (Expr.mem_constants.mpr ⟨value, Expr.mem_subterms_self _⟩)
    | concat parts =>
      obtain ⟨o, ho, rfl⟩ := List.mem_map.mp hn
      exact (checked.operand ho).ownWidth_pos fun c hc =>
        positive c (Expr.constants_operand (e := .concat parts) ho hc)
    | _ => cases hn

end

end Netlist

/-- What is written for one thing and then for another one is written for both. -/
theorem perm_both {before middle after first second l r : List Nat}
    (h : (middle ++ first).Perm (before ++ l)) (h' : (after ++ second).Perm (middle ++ r)) :
    (after ++ (first ++ second)).Perm (before ++ (l ++ r)) := by
  simp only [List.perm_iff_count, List.count_append] at h h' ⊢
  intro n
  have := h n
  have := h' n
  omega

def Scratch.sizes (shapes : String → Shape) (s : Scratch) : List Nat :=
  s.temporaries.flatMap (·.value.sizes shapes)

theorem Scratch.sizes_add (shapes : String → Shape) (s : Scratch) (shape : Shape)
    (value : Verilog.Expr) : (s.add shape value).sizes shapes = s.sizes shapes ++ value.sizes shapes := by
  simp [sizes, add]

theorem select_sizes (shapes : String → Shape) (base : String) (start stop : Nat) :
    (select base start stop).sizes shapes = [] := by
  unfold select
  split <;> rfl

theorem select_width (shapes : String → Shape) (base : String) {start stop : Nat}
    (range : start < stop) : (select base start stop).width shapes = stop - start := by
  unfold select
  split
  · rename_i one
    exact one.symm
  · rw [Verilog.Expr.width]
    omega

namespace Expr

section

variable (shapeOf : SignalId → Shape) (shapes : String → Shape)

/-- An expression is written with its own width and its own sizes. -/
structure Sized (s : Scratch) (e : Expr) (r : Verilog.Expr × Scratch) : Prop where
  width : r.1.width shapes = e.ownWidth shapeOf
  sizes : (r.2.sizes shapes ++ r.1.sizes shapes).Perm (s.sizes shapes ++ e.ownSizes shapeOf)

structure PartsSized (s : Scratch) (parts : List Expr) (r : List Verilog.Expr × Scratch) :
    Prop where
  width : Verilog.Expr.partsWidth shapes r.1 = ownTotal shapeOf parts
  sizes : (r.2.sizes shapes ++ Verilog.Expr.sizesOfParts shapes r.1).Perm
    (s.sizes shapes ++ (ownSizesOfParts shapeOf parts ++ parts.map (ownWidth shapeOf)))

variable {shapeOf shapes}

/-- The part that is lowered last comes after the higher ones. -/
theorem PartsSized.cons {s : Scratch} {e : Expr} {rest : List Expr}
    {higher : List Verilog.Expr × Scratch} {lowest : Verilog.Expr × Scratch}
    (hr : PartsSized shapeOf shapes s rest higher)
    (he : Sized shapeOf shapes higher.2 e lowest) :
    PartsSized shapeOf shapes s (e :: rest) (higher.1 ++ [lowest.1], lowest.2) := by
  constructor
  · rw [Verilog.Expr.partsWidth_append, hr.width, ownTotal, Verilog.Expr.partsWidth,
      Verilog.Expr.partsWidth, he.width, Nat.add_zero, Nat.add_comm]
  · have both := perm_both hr.sizes he.sizes
    rw [ownSizesOfParts_cons, Verilog.Expr.sizesOfParts_append, Verilog.Expr.sizesOfParts,
      Verilog.Expr.sizesOfParts, List.append_nil, he.width, List.map_cons]
    simp only [List.perm_iff_count, List.count_append, List.count_cons] at both ⊢
    intro n
    have := both n
    omega

end

variable {shapeOf : SignalId → Shape} {shapes : String → Shape} {nameOf : SignalId → String}

mutual

theorem lowered_sized (e : Expr) (s : Scratch) (wellFormed : e.WellFormed shapeOf)
    (reads : ∀ id ∈ e.reads, shapes (nameOf id) = shapeOf id) :
    Sized shapeOf shapes s e (lowered shapeOf nameOf e s) := by
  cases e with
  | signal id =>
    refine ⟨?_, .refl _⟩
    rw [lowered_signal, Verilog.Expr.width, ownWidth, reads id (by simp [Expr.reads])]
  | const value shape => exact ⟨rfl, .refl _⟩
  | unary op operand =>
    have h := lowered_sized operand s wellFormed reads
    rw [lowered_unary]
    refine ⟨h.width, ?_⟩
    rw [ownSizes_unary]
    exact h.sizes
  | binary op left right =>
    have hl := lowered_sized left s wellFormed.1 fun id hid => reads id (by simp [Expr.reads, hid])
    have hr := lowered_sized right (lowered shapeOf nameOf left s).2 wellFormed.2
      fun id hid => reads id (by simp [Expr.reads, hid])
    rw [lowered_binary]
    refine ⟨?_, ?_⟩
    · rw [Verilog.Expr.width, ownWidth, hl.width, hr.width]
    · rw [ownSizes_binary]
      exact perm_both hl.sizes hr.sizes
  | slice value start stop =>
    rw [lowered_slice]
    refine ⟨select_width shapes _ wellFormed.2.1, ?_⟩
    rw [select_sizes, List.append_nil, ownSizes_slice]
    by_cases hv : ∃ id, value = .signal id
    · obtain ⟨id, rfl⟩ := hv
      exact .of_eq (List.append_nil _).symm
    · have other : ∀ id, value ≠ .signal id := fun id h => hv ⟨id, h⟩
      rw [based_of_ne_signal shapeOf nameOf other, temporary_run, Scratch.sizes_add]
      exact (lowered_sized value s wellFormed.1 reads).sizes
  | concat parts =>
    have h := loweredParts_sized parts s wellFormed reads
    rw [lowered_concat]
    refine ⟨h.width, ?_⟩
    rw [ownSizes_concat]
    exact h.sizes
  | mux condition whenSet whenClear =>
    obtain ⟨wc, ws, wo⟩ := wellFormed
    have hc := lowered_sized condition s wc fun id hid => reads id (by simp [Expr.reads, hid])
    have hs := lowered_sized whenSet (lowered shapeOf nameOf condition s).2 ws
      fun id hid => reads id (by simp [Expr.reads, hid])
    have ho := lowered_sized whenClear
      (lowered shapeOf nameOf whenSet (lowered shapeOf nameOf condition s).2).2 wo
      fun id hid => reads id (by simp [Expr.reads, hid])
    rw [lowered_mux]
    refine ⟨?_, ?_⟩
    · rw [Verilog.Expr.width, ownWidth, hs.width, ho.width]
    · rw [ownSizes_mux]
      exact perm_both hc.sizes (perm_both hs.sizes ho.sizes)

theorem loweredParts_sized (parts : List Expr) (s : Scratch)
    (wellFormed : PartsWellFormed shapeOf parts)
    (reads : ∀ id ∈ readsParts parts, shapes (nameOf id) = shapeOf id) :
    PartsSized shapeOf shapes s parts (loweredParts shapeOf nameOf parts s) := by
  cases parts with
  | nil => exact ⟨rfl, .refl _⟩
  | cons e rest =>
    have hr := loweredParts_sized rest s wellFormed.2
      fun id hid => reads id (by simp [readsParts, hid])
    have he := lowered_sized e (loweredParts shapeOf nameOf rest s).2 wellFormed.1
      fun id hid => reads id (by simp [readsParts, hid])
    rw [loweredParts_cons]
    exact hr.cons he

end

end Expr

namespace Netlist

/-- The sizes in the values of statements. -/
def sizesIn (m : Netlist) (statements : List Statement) : List Nat :=
  statements.flatMap (·.value.ownSizes m.shapeOf)

namespace Body

def sizes (shapes : String → Shape) (b : Body) : List Nat := sizesOf shapes b.assigns

variable {m : Netlist} {nameOf : SignalId → String} {shapes : String → Shape}

/-- The value is well formed, and the signals that it reads are declared with their shapes. -/
def Declares (m : Netlist) (nameOf : SignalId → String) (shapes : String → Shape)
    (s : Statement) : Prop :=
  s.value.WellFormed m.shapeOf ∧ ∀ id ∈ s.value.reads, shapes (nameOf id) = m.shapeOf id

theorem lower_sizes (b : Body) {s : Statement} (declares : Declares m nameOf shapes s) :
    ((b.lower m nameOf s.value).2.sizes shapes ++
      (b.lower m nameOf s.value).1.sizes shapes).Perm
      (b.sizes shapes ++ s.value.ownSizes m.shapeOf) := by
  have h := (Expr.lowered_sized s.value ⟨b.taken, []⟩ declares.1 declares.2).sizes
  rw [lower_eq]
  simpa [sizes, merge, Scratch.sizes, sizesOf, List.flatMap_map, List.append_assoc] using
    h.append_left (b.sizes shapes)

theorem addComb_sizes (b : Body) {s : Statement} (declares : Declares m nameOf shapes s) :
    ((b.addComb m nameOf s).sizes shapes).Perm (b.sizes shapes ++ s.value.ownSizes m.shapeOf) := by
  have h := lower_sizes b declares
  rw [addComb_eq]
  simpa [sizes, addAssign, sizesOf] using h

theorem addCombs_sizes (b : Body) (statements : List Statement)
    (declares : ∀ s ∈ statements, Declares m nameOf shapes s) :
    ((statements.foldl (fun b s => b.addComb m nameOf s) b).sizes shapes).Perm
      (b.sizes shapes ++ m.sizesIn statements) := by
  induction statements generalizing b with
  | nil => exact .of_eq (List.append_nil _).symm
  | cons s rest ih =>
    obtain ⟨first, others⟩ := List.forall_mem_cons.mp declares
    have hrest := ih (b.addComb m nameOf s) others
    rw [sizesIn, List.flatMap_cons, ← List.append_assoc]
    exact hrest.trans ((addComb_sizes b first).append_right _)

theorem addUpdates_sizes (b : Body) (statements : List Statement)
    (declares : ∀ s ∈ statements, Declares m nameOf shapes s) :
    ((b.addUpdates m nameOf statements).2.sizes shapes ++
      sizesOf shapes (b.addUpdates m nameOf statements).1).Perm
      (b.sizes shapes ++ m.sizesIn statements) := by
  induction statements generalizing b with
  | nil => exact .refl _
  | cons s rest ih =>
    obtain ⟨first, others⟩ := List.forall_mem_cons.mp declares
    exact perm_both (lower_sizes b first) (ih (b.lower m nameOf s.value).2 others)

theorem addProcesses_sizes (b : Body) (domains : List ClockDomain)
    (declares : ∀ s ∈ m.statements, Declares m nameOf shapes s) :
    ((b.addProcesses m nameOf domains).2.sizes shapes ++
      (b.addProcesses m nameOf domains).1.flatMap fun p => sizesOf shapes p.updates).Perm
      (b.sizes shapes ++
        m.sizesIn (domains.flatMap fun d => m.statements.filter (·.domain == some d.name))) := by
  induction domains generalizing b with
  | nil => exact .refl _
  | cons d rest ih =>
    rw [List.flatMap_cons, sizesIn, List.flatMap_append]
    cases hs : m.statements.filter (·.domain == some d.name) with
    | nil =>
      simp only [addProcesses, hs, List.flatMap_nil, List.nil_append]
      exact ih b
    | cons s more =>
      have first := addUpdates_sizes b (s :: more)
        fun t ht => declares t (List.mem_of_mem_filter (hs ▸ ht))
      simp only [addProcesses, hs]
      exact perm_both first (ih (b.addUpdates m nameOf (s :: more)).2)

end Body

namespace Stages

variable {m : Netlist} {targets : List Target} (s : m.Stages targets)

theorem declares (name : String) {st : Statement} (h : st ∈ m.statements) :
    Body.Declares m s.nameOf (s.generated name).verilog.shapeOf st :=
  ⟨(s.fits h).1, fun _ hid => (s.layout_final name).shapeOf_signal (s.read_named h hid)⟩

theorem checked (s : m.Stages targets) {st : Statement} (h : st ∈ m.statements) :
    m.Checked st.target st.value :=
  ⟨forM_ok.mp s.statements_ok st h,
    fun _ hid => checkWidths_ok s.widths_ok (s.allocated (s.read_named h hid))⟩

/-- Registers and ties have the widths of their signals. -/
theorem registerSizes_positive (name : String) :
    ∀ n ∈ (s.generated name).verilog.registerSizes, 0 < n := by
  have l := s.layout_final name
  refine List.forall_mem_append.mpr ⟨fun n hn => ?_, List.forall_mem_flatMap.mpr fun p hp n hn => ?_⟩
  · obtain ⟨net, hnet, hsize⟩ := List.mem_filterMap.mp hn
    cases net with
    | wire shape name => cases hsize
    | reg shape name value =>
      obtain rfl := Option.some.inj hsize
      exact l.shapes_positive (name, shape) (List.mem_append_right _ (List.mem_map_of_mem hnet))
  · obtain ⟨d, -, process⟩ := l.exists_domain hp
    obtain ⟨r, hr, rfl⟩ := List.mem_map.mp hn
    rw [process.resets] at hr
    obtain ⟨id, hid, rfl⟩ := List.mem_map.mp hr
    obtain ⟨st, hst, rfl⟩ := List.mem_map.mp (List.mem_eraseDups.mp hid)
    exact checkWidths_ok s.widths_ok (s.allocated (s.driven_named (List.mem_of_mem_filter hst)))

theorem start_sizes_positive (shapes : String → Shape) :
    ∀ n ∈ s.start.sizes shapes, 0 < n := by
  refine List.forall_mem_flatMap.mpr fun a ha n hn => ?_
  obtain ⟨id, hid, rfl⟩ := List.mem_map.mp ha
  obtain rfl := List.mem_singleton.mp hn
  exact checkWidths_ok s.widths_ok (s.allocated (s.tied_iff.mp hid).1)

theorem sizes_perm (name : String) : (s.generated name).verilog.sizes.Perm
    ((s.generated name).verilog.registerSizes ++
      (s.start.sizes (s.generated name).verilog.shapeOf ++ m.sizesIn m.written)) := by
  have declares := fun st (hst : st ∈ m.statements) => s.declares name hst
  have combs := Body.addCombs_sizes s.start s.combs
    fun st hst => declares st (List.mem_of_mem_filter hst)
  have processes := Body.addProcesses_sizes s.middle m.domains.values declares
  have written_eq : (s.generated name).verilog.processes =
      (s.middle.addProcesses m s.nameOf m.domains.values).1 := by rw [s.verilog_eq]
  rw [Module.sizes, (s.layout_final name).assigns, written_eq]
  refine List.Perm.append_left _ ?_
  rw [sizesIn, written, List.flatMap_append, ← List.append_assoc]
  exact processes.trans (combs.append_right _)

theorem sizes_positive_iff (name : String) : (∀ n ∈ (s.generated name).verilog.sizes, 0 < n) ↔
    ∀ st ∈ m.written, ∀ c ∈ st.value.constants, 0 < c.width := by
  have same : ∀ n, n ∈ (s.generated name).verilog.sizes ↔ _ := fun _ => (s.sizes_perm name).mem_iff
  simp only [same, List.forall_mem_append]
  rw [and_iff_right (s.registerSizes_positive name), and_iff_right (s.start_sizes_positive _), sizesIn,
    List.forall_mem_flatMap]
  exact forall₂_congr fun st hst => (s.checked (mem_of_mem_written hst)).ownSizes_positive_iff

end Stages

/-- The checks keep zero widths out, except for those of constants. Of the parts of a statement
whose widths stay within 32 bits all have a width if, and only if, there is no constant without
one among them; where a sum of widths goes beyond, nothing is said of it. Everything is declared
with a width, and all literals and all parts of concatenations have a size if, and only if, no
statement has such a constant. All statements are written, and the text has the same
declarations and sizes. -/
theorem generated_sizes_positive_iff {m : Netlist} {name : String} {targets : List Target}
    {g : Generated} (generated : m.generate name targets = .ok g) :
    (∀ st ∈ m.statements, ∀ e ∈ st.value.subterms,
      (∀ p ∈ e.subterms, p.fits m.shapeOf = true → 0 < (p.shape m.shapeOf).width) ↔
        ∀ c ∈ e.constants, 0 < c.width) ∧
    (∀ p ∈ g.verilog.shapes, 0 < p.2.width) ∧
    ((∀ n ∈ g.verilog.sizes, 0 < n) ↔ ∀ st ∈ m.written, ∀ c ∈ st.value.constants, 0 < c.width) ∧
    (Built m → m.written.Perm m.statements ∧
      (Verilog.isIdentifier name = true → ∃ M, Verilog.read g.text = some M ∧
        M.shapes = g.verilog.shapes ∧ M.sizes = g.verilog.sizes)) := by
  obtain ⟨s, rfl⟩ := generate_eq_ok.mp generated
  have l := s.layout_final name
  refine ⟨fun st hst e he => ?_, l.shapes_positive, s.sizes_positive_iff name,
    fun built => ⟨written_perm built s.drivenBy.known, fun legal => ?_⟩⟩
  · have checked := Expr.inherited (fun _ h _ => h.operand) st.value (s.checked hst) e he
    exact checked.widths_positive_iff
  · exact ⟨_, Verilog.read_text (l.legal_names built legal), Module.shapes_normal l.shapes_positive,
      Module.sizes_normal l.shapes_positive⟩

/-- A bit below a constant that has none. -/
def hollowConcat : Netlist :=
  let m := (({} : Netlist).addSignal "a" .bit).2
  let m := (m.addSignal "o" .bit).2
  m.drive none ⟨1⟩ (.concat [.signal ⟨0⟩, .ofWord 0 0])

theorem hollowConcat_built : Built hollowConcat :=
  .statement _ _ _ (.signal _ _ _ (.signal _ _ _ .empty))

def hollowConcatText : String :=
  "/* Generated by weld */\n\nmodule top(a, o);\n  input a;\n  output o;\n" ++
    "  assign o = \x7b0'h0, a\x7d;\nendmodule\n"

theorem hollowConcat_writes_zero_size : Built hollowConcat ∧
    ∃ g, hollowConcat.generate "top" [.signal ⟨0⟩, .signal ⟨1⟩] = .ok g ∧
      g.text = hollowConcatText ∧ g.verilog.sizes = [0, 0, 1] ∧
      (∀ p ∈ g.verilog.shapes, 0 < p.2.width) ∧
      ∃ p ∈ (Expr.concat [.signal ⟨0⟩, .ofWord 0 0]).subterms,
        p.fits hollowConcat.shapeOf = true ∧ (p.shape hollowConcat.shapeOf).width = 0 := by
  obtain ⟨g, hg, text, sizes⟩ : ∃ g,
      hollowConcat.generate "top" [.signal ⟨0⟩, .signal ⟨1⟩] = .ok g ∧
      g.text = hollowConcatText ∧ g.verilog.sizes = [0, 0, 1] :=
    ⟨_, rfl, by decide +kernel, by decide +kernel⟩
  obtain ⟨parts, declared, -, -⟩ := generated_sizes_positive_iff hg
  refine ⟨hollowConcat_built, g, hg, text, sizes, declared, ?_⟩
  by_contra none
  have positive : ∀ p ∈ (Expr.concat [.signal ⟨0⟩, .ofWord 0 0]).subterms,
      p.fits hollowConcat.shapeOf = true → 0 < (p.shape hollowConcat.shapeOf).width :=
    fun p hp fits => Nat.pos_of_ne_zero fun zero => none ⟨p, hp, fits, zero⟩
  have widths := (parts _ (List.mem_singleton.mpr rfl) _ (Expr.mem_subterms_self _)).mp positive
  exact absurd (widths (.unsignedBits 0) (by decide)) (by decide)

end Netlist

end NetBridge.Guest
