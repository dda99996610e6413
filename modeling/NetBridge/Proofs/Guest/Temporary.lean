import NetBridge.Proofs.Guest.Drivers
import NetBridge.Proofs.Guest.Subterm

/-! # Temporaries

Every slice over an operand without a name of its own makes one temporary wire, in
whichever statement and however deep it stands. The names of signals and temporaries are
all different. -/
namespace NetBridge.Guest

/-- The operand of the slice has no name, so that it goes through a temporary. -/
def Slice.needsWire (s : Slice) : Bool :=
  match s.value with
  | .signal _ => false
  | _ => true

theorem Slice.needsWire_of_ne_signal {s : Slice} (h : ∀ id, s.value ≠ .signal id) :
    s.needsWire = true := by
  unfold needsWire
  split
  · rename_i id heq
    exact absurd heq (h id)
  · rfl

namespace Expr

/-- The number of temporaries that an expression is lowered with. -/
def wires (e : Expr) : Nat := e.slices.countP Slice.needsWire

def wiresOfParts (parts : List Expr) : Nat := (slicesOfParts parts).countP Slice.needsWire

variable (shapeOf : SignalId → Shape) (nameOf : SignalId → String)

mutual

theorem lowered_length (e : Expr) (s : Scratch) :
    (lowered shapeOf nameOf e s).2.temporaries.length = s.temporaries.length + e.wires := by
  cases e with
  | signal id => rfl
  | const value shape => rfl
  | unary op operand =>
    rw [wires, slices_unary]
    exact lowered_length operand s
  | binary op left right =>
    have hl := lowered_length left s
    have hr := lowered_length right (lowered shapeOf nameOf left s).2
    rw [lowered_binary, hr, hl]
    simp only [wires, slices_binary, List.countP_append, Nat.add_assoc]
  | slice value start stop =>
    rw [lowered_slice, wires, slices_slice, List.countP_append, List.countP_singleton]
    by_cases hv : ∃ id, value = .signal id
    · obtain ⟨id, rfl⟩ := hv
      rfl
    · have other : ∀ id, value ≠ .signal id := fun id h => hv ⟨id, h⟩
      have h := lowered_length value s
      rw [based_of_ne_signal shapeOf nameOf other, temporary_run,
        Slice.needsWire_of_ne_signal (s := ⟨value, start, stop⟩) other]
      simp [Scratch.add, h, wires, Nat.add_assoc]
  | concat parts =>
    rw [wires, slices_concat]
    exact loweredParts_length parts s
  | mux condition whenSet whenClear =>
    have hc := lowered_length condition s
    have hs := lowered_length whenSet (lowered shapeOf nameOf condition s).2
    have ho := lowered_length whenClear
      (lowered shapeOf nameOf whenSet (lowered shapeOf nameOf condition s).2).2
    rw [lowered_mux, ho, hs, hc]
    simp only [wires, slices_mux, List.countP_append, Nat.add_assoc]

theorem loweredParts_length (parts : List Expr) (s : Scratch) :
    (loweredParts shapeOf nameOf parts s).2.temporaries.length =
      s.temporaries.length + wiresOfParts parts := by
  cases parts with
  | nil => rfl
  | cons e rest =>
    have hr := loweredParts_length rest s
    have he := lowered_length e (loweredParts shapeOf nameOf rest s).2
    rw [loweredParts_cons, he, hr]
    simp only [wires, wiresOfParts, slicesOfParts_cons, List.countP_append]
    omega

end

end Expr

namespace Netlist

/-- The statements in the order in which they are written: first the combinational ones,
and then those of one domain after the other. -/
def written (m : Netlist) : List Statement :=
  m.statements.filter (·.domain.isNone) ++
    m.domains.values.flatMap fun d => m.statements.filter (·.domain == some d.name)

/-- The slices in the values of statements. -/
def slicesOf (statements : List Statement) : List Slice := statements.flatMap (·.value.slices)

/-- The number of temporaries of some statements. -/
def wiresOf (statements : List Statement) : Nat := (slicesOf statements).countP Slice.needsWire

theorem wiresOf_cons (s : Statement) (rest : List Statement) :
    wiresOf (s :: rest) = s.value.wires + wiresOf rest := by
  rw [wiresOf, slicesOf, List.flatMap_cons, List.countP_append]
  rfl

theorem wiresOf_append (l r : List Statement) : wiresOf (l ++ r) = wiresOf l + wiresOf r := by
  rw [wiresOf, slicesOf, List.flatMap_append, List.countP_append]
  rfl

namespace Body

variable (m : Netlist) (nameOf : SignalId → String)

theorem length_lower (b : Body) (e : Expr) :
    (b.lower m nameOf e).2.wires.length = b.wires.length + e.wires := by
  have h := e.lowered_length m.shapeOf nameOf ⟨b.taken, []⟩
  rw [lower_eq]
  simpa [merge] using h

theorem length_addCombs (b : Body) (statements : List Statement) :
    (statements.foldl (fun b s => b.addComb m nameOf s) b).wires.length =
      b.wires.length + wiresOf statements := by
  induction statements generalizing b with
  | nil => rfl
  | cons s rest ih =>
    have first : (b.addComb m nameOf s).wires.length = b.wires.length + s.value.wires :=
      length_lower m nameOf b s.value
    rw [List.foldl_cons, ih, first, wiresOf_cons, Nat.add_assoc]

theorem length_addUpdates (b : Body) (statements : List Statement) :
    (b.addUpdates m nameOf statements).2.wires.length = b.wires.length + wiresOf statements := by
  induction statements generalizing b with
  | nil => rfl
  | cons s rest ih =>
    have others := ih (b.lower m nameOf s.value).2
    rw [length_lower, Nat.add_assoc, ← wiresOf_cons] at others
    exact others

theorem length_addProcesses (b : Body) (domains : List ClockDomain) :
    (b.addProcesses m nameOf domains).2.wires.length = b.wires.length +
      wiresOf (domains.flatMap fun d => m.statements.filter (·.domain == some d.name)) := by
  induction domains generalizing b with
  | nil => rfl
  | cons d rest ih =>
    rw [List.flatMap_cons]
    cases hs : m.statements.filter (·.domain == some d.name) with
    | nil =>
      simp only [addProcesses, hs, List.nil_append]
      exact ih b
    | cons s more =>
      have others := ih (b.addUpdates m nameOf (s :: more)).2
      rw [length_addUpdates, Nat.add_assoc, ← wiresOf_append] at others
      simp only [addProcesses, hs]
      exact others

end Body

namespace Stages

variable {m : Netlist} {targets : List Target} (s : m.Stages targets)

theorem length_wires : s.final.wires.length = wiresOf m.written := by
  have processes := Body.length_addProcesses m s.nameOf s.middle m.domains.values
  have first := Body.length_addCombs m s.nameOf s.start s.combs
  rw [final, processes, middle, first, Nat.add_assoc, ← wiresOf_append]
  exact Nat.zero_add _

end Stages

/-- No name of a generated module stands for two things. The names of signals tell the
signals apart, and exactly the ports and what the statements mention have one. The other
nets are temporaries, one for each slice over an operand without a name, and have names
apart from each other and from the signals. To that end the search for a name always ends,
on the first candidate that is free. -/
theorem generated_names_apart {m : Netlist} {name : String} {targets : List Target} {g : Generated}
    (generated : m.generate name targets = .ok g) :
    (∀ a b n, Table.get? g.names a = some n → Table.get? g.names b = some n → a = b) ∧
    (∀ id, (∃ n, Table.get? g.names id = some n) ↔ id ∈ g.ports.keys ∨ ∃ st ∈ m.statements,
      st.target = id ∨ id ∈ st.value.reads ∨
        ∃ d, st.domain.bind m.domain? = some d ∧ (d.clk = id ∨ d.rst = id)) ∧
    (∃ signals temporaries, g.verilog.nets = signals ++ temporaries ∧
      (∀ net ∈ signals, ∃ id, Table.get? g.names id = some net.name) ∧
      temporaries.length = wiresOf m.written ∧
      (temporaries.map Verilog.Net.name).Nodup ∧
      ∀ net ∈ temporaries, ∀ id, Table.get? g.names id ≠ some net.name) ∧
    ∀ taken preferred, Verilog.IsFirstFree taken preferred (Verilog.freshName taken preferred) := by
  obtain ⟨s, rfl⟩ := generate_eq_ok.mp generated
  have l := s.layout_final name
  refine ⟨?_, ?_, ⟨_, s.final.wires, l.nets, ?_, s.length_wires, l.temps_nodup, ?_⟩,
    Verilog.freshName_isFirstFree⟩
  · intro a b n ha hb
    obtain ⟨hidA, rfl⟩ := s.get?_names_iff.mp ha
    obtain ⟨hidB, same⟩ := s.get?_names_iff.mp hb
    exact s.nameOf_injective hidA hidB same.symm
  · intro id
    have named : id ∈ s.order ↔ id ∈ s.ports.keys ∨ _ := s.mem_order.trans (or_congr_right mem_mentioned)
    exact ⟨fun ⟨n, hn⟩ => named.mp (s.get?_names_iff.mp hn).1,
      fun h => ⟨_, s.get?_names_eq (named.mpr h)⟩⟩
  · intro net hnet
    obtain ⟨id, hid, same, -⟩ := s.mem_nets.mp (List.mem_map_of_mem hnet)
    exact ⟨id, s.get?_names_iff.mpr ⟨hid, same⟩⟩
  · intro net hnet
    exact s.not_mem_taken.mp (l.temps_disjoint (List.mem_map_of_mem hnet))

/-- Two signals of one name, one that is named like the second of them would be, and one
that is named like a temporary. -/
def lookalikes : Netlist :=
  let m := (({} : Netlist).addSignal "x" (.unsignedBits 4)).2
  let m := (m.addSignal "x" (.unsignedBits 4)).2
  let m := (m.addSignal "x_1" .bit).2
  let m := (m.addSignal "_t" .bit).2
  let m := m.drive none ⟨2⟩ (.slice (.binary .add (.signal ⟨0⟩) (.signal ⟨1⟩)) 4 5)
  m.drive none ⟨3⟩ (.slice (.unary .not (.slice (.unary .neg (.signal ⟨0⟩)) 1 3)) 0 1)

theorem lookalikes_named_apart : ∃ g, lookalikes.generate "top" [.signal ⟨2⟩] = .ok g ∧
    g.names = [(⟨0⟩, "x"), (⟨1⟩, "x_2"), (⟨2⟩, "x_1"), (⟨3⟩, "_t")] ∧
    g.verilog.nets.map Verilog.Net.name = ["x", "x_2", "_t", "_t_1", "_t_2", "_t_3"] ∧
    ∃ signals temporaries, g.verilog.nets = signals ++ temporaries ∧ temporaries.length = 3 ∧
      (temporaries.map Verilog.Net.name).Nodup := by
  obtain ⟨g, hg, names, nets⟩ : ∃ g, lookalikes.generate "top" [.signal ⟨2⟩] = .ok g ∧
      g.names = [(⟨0⟩, "x"), (⟨1⟩, "x_2"), (⟨2⟩, "x_1"), (⟨3⟩, "_t")] ∧
      g.verilog.nets.map Verilog.Net.name = ["x", "x_2", "_t", "_t_1", "_t_2", "_t_3"] :=
    ⟨_, rfl, by decide +kernel, by decide +kernel⟩
  obtain ⟨-, -, ⟨signals, temporaries, split, -, count, apart, -⟩, -⟩ := generated_names_apart hg
  exact ⟨g, hg, names, nets, signals, temporaries, split, count, apart⟩

end Netlist

end NetBridge.Guest
