import NetBridge.Proofs.Guest.Evaluation
import NetBridge.Proofs.Verilog.Header

/-! # Port lists

The ports are the signals behind the targets in the order in which they first occur. The
header of the text lists exactly these, and declares each of them once, with its direction
and its shape. -/
namespace NetBridge.Guest.Netlist

open Verilog (Module)
open Verilog.Reader (DeclaresPort header)

/-- What the ports say of the targets, target by target. -/
theorem ports_keys {m : Netlist} {drivers : Drivers} {targets : List Target}
    {ports : Table SignalId PortDirection} (h : m.ports drivers targets = .ok ports) :
    ∃ ids, targets.mapM m.resolve = .ok ids ∧ ports.keys = ids.eraseDups := by
  let P (done : List Target) (ports : Table SignalId PortDirection) : Prop :=
    ∃ ids, done.mapM m.resolve = .ok ids ∧ ports.keys = ids.eraseDups
  have step : ∀ done ports t ports', P done ports → m.addPort drivers ports t = .ok ports' →
      P (done ++ [t]) ports' := by
    rintro done ports t ports' ⟨ids, hids, keys⟩ h
    obtain ⟨id, ht, rfl⟩ := addPort_ok h
    refine ⟨ids ++ [id], ?_, ?_⟩
    · rw [List.mapM_append, hids, List.mapM_cons, ht]
      rfl
    · rw [List.eraseDups_append, ← keys]
      by_cases hid : id ∈ ids
      · have known : id ∈ ports.keys := keys ▸ List.mem_eraseDups.mpr hid
        simp [known, List.removeAll, hid]
      · have new : id ∉ ports.keys := fun hmem => hid (List.mem_eraseDups.mp (keys ▸ hmem))
        simp [new, List.removeAll, hid, Table.keys_append, List.eraseDups_cons]
        rfl
  have start : P [] [] := ⟨[], rfl, rfl⟩
  simpa using foldlM_ok step targets [] [] ports start h

namespace Stages

variable {m : Netlist} {targets : List Target} (s : m.Stages targets)

/-- Without a name a signal is called nothing. -/
theorem nameOf_cases (id : SignalId) : s.nameOf id ∈ s.taken ∨ s.nameOf id = "" := by
  by_cases h : id ∈ s.order
  · exact .inl (s.nameOf_mem_taken h)
  · have none : Table.get? s.names id = none :=
      Table.get?_eq_none_iff.mpr fun hkey => h (s.mem_names_keys.mp hkey)
    refine .inr ?_
    rw [nameOf, none]
    rfl

variable {s}

theorem Layout.lined {b : Body} {M : Module} (l : s.Layout b M)
    (name : Verilog.isIdentifier M.name = true) : M.Lined where
  name := name
  declared n hn := l.known_isName (l.mem_declared.mp hn)
  assigns a ha n hn := by
    refine l.known_isName ?_
    rcases List.mem_cons.mp hn with rfl | hn
    · exact l.assign_target ha
    · exact l.values a ha n hn
  updates p hp u hu n hn := l.known_isName ((l.process_known hp).1 u hu n hn)
  resets p hp r hr := by
    obtain ⟨-, resets, targets⟩ := l.process_known hp
    exact l.known_isName (.inl (targets r.target (resets r hr)))
  edges p hp := by
    have whole : ∀ id, '\n' ∉ (s.nameOf id).toList := fun id => by
      rcases s.nameOf_cases id with named | nameless
      · exact Verilog.Reader.newline_notMem_name (s.taken_legal _ named)
      · simp [nameless]
    obtain ⟨d, -, process⟩ := l.exists_domain hp
    rw [process.clk, process.rst]
    exact ⟨whole d.clk, whole d.rst⟩

/-- The names of the ports differ. -/
theorem port_names_nodup (s : m.Stages targets) : (s.ports.keys.map s.nameOf).Nodup :=
  s.portsFor.nodup.map_on fun _ ha _ hb =>
    s.nameOf_injective (s.port_named ha) (s.port_named hb)

end Stages

/-- A port in the text is that of a signal: it has its direction, name and shape. -/
structure DeclaredAs (m : Netlist) (g : Generated) (p : SignalId × PortDirection)
    (port : Verilog.Port) : Prop where
  direction : port.direction = p.2
  name : Table.get? g.names p.1 = some port.name
  shape : ∃ signal, m.signal? p.1 = some signal ∧ port.shape = signal.shape

theorem Stages.declaredAs {m : Netlist} {targets : List Target} (s : m.Stages targets)
    (name : String) {p : SignalId × PortDirection} (h : p ∈ s.ports) :
    m.DeclaredAs (s.generated name) p
      (Module.normalPort ⟨p.2, m.shapeOf p.1, s.nameOf p.1⟩) := by
  have named := s.port_named (Table.mem_keys_of_mem h)
  have allocated := s.allocated named
  obtain ⟨signal, found⟩ := Arena.exists_get? allocated
  have shape : m.shapeOf p.1 = signal.shape := by simp [shapeOf, signal?, found]
  have positive := checkWidths_ok s.widths_ok allocated
  refine ⟨rfl, s.get?_names_eq named, signal, found, ?_⟩
  rw [← shape]
  exact congrArg (Shape.mk · _) (Nat.max_eq_left positive)

/-- The ports are the signals behind the targets, each of them once and in the order in which
they first occur, and the outputs among them are those that a statement drives. The header of
the text lists their names in that order. The lines right after it declare them, each with its
direction and with the width and the signedness of its signal. No other line declares a port. -/
theorem generated_ports_match_header {m : Netlist} {name : String}
    (legal : Verilog.isIdentifier name = true) {targets : List Target} {g : Generated}
    (generated : m.generate name targets = .ok g) :
    (∃ ids, targets.mapM m.resolve = .ok ids ∧ g.ports.keys = ids.eraseDups) ∧
    g.ports.keys.Nodup ∧
    (∀ p ∈ g.ports, p.2 = .output ↔ ∃ st ∈ m.statements, st.target = p.1) ∧
    ∃ h rest, header g.text.toList = some (h, rest) ∧ h.name = name ∧
      List.Forall₂ (DeclaredAs m g) g.ports h.ports ∧ h.listed = h.ports.map (·.name) ∧
      h.listed.Nodup ∧ ∀ l ∈ rest.splitOn '\n', ¬ DeclaresPort l := by
  obtain ⟨s, rfl⟩ := generate_eq_ok.mp generated
  have l := s.layout_final name
  obtain ⟨rest, read, portless⟩ := Verilog.header_text (l.lined legal)
  rw [Module.normal, l.ports, List.map_map, List.map_map] at read
  refine ⟨ports_keys s.ports_ok, s.portsFor.nodup, fun p hp => ?_, _, rest, read, rfl, ?_, ?_, ?_,
    portless⟩
  · exact s.direction_eq (Table.get?_of_mem s.portsFor.nodup hp)
  · exact List.forall₂_map_right_iff.mpr (List.forall₂_same.mpr fun p hp => s.declaredAs name hp)
  · simp [Module.normalPort, Function.comp_def]
  · have names := s.port_names_nodup
    rwa [Table.keys, List.map_map] at names

/-- A register and the clock that it is updated on, in a domain that also has a reset. -/
def clockedPorts : Netlist :=
  match ({} : Netlist).addDomain topDomain with
  | .error _ => {}
  | .ok (_, m) =>
    let (q, m) := m.addSignal "output" ⟨4, true⟩ 5
    m.drive (some topDomain) q (.unary .not (.signal q))

/-- The register and the clock are asked for twice, the clock as a signal and as that of its
domain. -/
def clockedTargets : List Target := [.signal ⟨2⟩, .clock topDomain, .signal ⟨2⟩, .signal ⟨0⟩]

def clockedPortsText : String :=
  "/* Generated by weld */\n\nmodule top(output_, clk);\n  output signed [3:0] output_;\n" ++
    "  input clk;\n  wire rst;\n  reg signed [3:0] output_ = 4'sh5;\n  assign rst = 1'h0;\n" ++
    "  always @(posedge clk) begin\n    output_ <= (~output_);\n    if (rst) begin\n" ++
    "      output_ <= 4'sh5;\n    end\n  end\nendmodule\n"

theorem clockedPorts_match_header : Verilog.isIdentifier "top" = true ∧
    ∃ g, clockedPorts.generate "top" clockedTargets = .ok g ∧ g.text = clockedPortsText ∧
      g.ports = [(⟨2⟩, .output), (⟨0⟩, .input)] ∧
      ∃ h rest, header clockedPortsText.toList = some (h, rest) ∧ h.name = "top" ∧
        List.Forall₂ (DeclaredAs clockedPorts g) g.ports h.ports ∧ h.listed.Nodup ∧
        ∀ l ∈ rest.splitOn '\n', ¬ DeclaresPort l := by
  obtain ⟨g, hg, text, ports⟩ : ∃ g, clockedPorts.generate "top" clockedTargets = .ok g ∧
      g.text = clockedPortsText ∧ g.ports = [(⟨2⟩, .output), (⟨0⟩, .input)] :=
    ⟨_, rfl, by decide +kernel, rfl⟩
  obtain ⟨-, -, -, h, rest, read, named, declared, -, apart, portless⟩ :=
    generated_ports_match_header (by decide) hg
  exact ⟨by decide, g, hg, text, ports, h, rest, text ▸ read, named, declared, apart, portless⟩

end NetBridge.Guest.Netlist
