import NetBridge.Proofs.Guest.Drivers
import NetBridge.Proofs.Verilog.Reserved

/-! # Legal identifiers in generated modules

The names of signals and temporaries have the characters of identifiers. A name is reserved
only if the name that a signal was added under is a reserved word that the generator does
not know. The name of the module is written as it is given. -/
namespace NetBridge.Guest.Netlist

open Verilog (cleaned freshName isLegal keywords legalName matchesPattern reservedWords Unlisted)

/-- Every cleaned preferred name is in use once all signals are named. -/
theorem legalName_mem_nameAll (m : Netlist) (taken : List String) (ids : List SignalId) :
    (∀ n ∈ taken, n ∈ (m.nameAll taken ids).2) ∧
      ∀ id ∈ ids, legalName (m.signalName id) ∈ (m.nameAll taken ids).2 := by
  induction ids generalizing taken with
  | nil => exact ⟨fun n hn => hn, by simp⟩
  | cons id rest ih =>
    obtain ⟨kept, used⟩ := ih (freshName taken (m.signalName id) :: taken)
    refine ⟨fun n hn => kept n (List.mem_cons_of_mem _ hn), List.forall_mem_cons.mpr ⟨?_, used⟩⟩
    exact kept _ (Verilog.legalName_mem_freshName taken (m.signalName id))

theorem unlisted_of_nameAll (m : Netlist) (taken : List String) (ids : List SignalId) :
    ∀ p ∈ (m.nameAll taken ids).1, p.2 ∈ reservedWords → Unlisted (cleaned (m.signalName p.1)) := by
  induction ids generalizing taken with
  | nil => simp [nameAll]
  | cons id rest ih =>
    exact List.forall_mem_cons.mpr ⟨Verilog.freshName_reserved, ih _⟩

/-- No temporary is named by a reserved word. -/
theorem Body.Steps.temps_not_reserved {known : String → Prop} {b b' : Body} {targets : List String}
    (h : b.Steps known targets b') : ∀ n ∈ b'.temps, n ∈ b.temps ∨ n ∉ reservedWords := by
  induction h with
  | refl => exact fun n hn => .inl hn
  | @temporary targets b' shape value _ _ _ ih =>
    intro n hn
    rw [Body.temps, Body.addTemporary, List.map_append] at hn
    rcases List.mem_append.mp hn with hn | hn
    · exact ih n hn
    · obtain rfl := List.mem_singleton.mp hn
      have listed : ¬ Unlisted (cleaned temporaryName) := by decide +kernel
      exact .inr fun reserved => listed (Verilog.freshName_reserved reserved)
  | assign a _ _ ih => exact ih

namespace Stages

variable {m : Netlist} {targets : List Target} (s : m.Stages targets)

theorem legalName_mem_taken {id : SignalId} (h : id ∈ s.order) :
    legalName (m.signalName id) ∈ s.taken :=
  (m.legalName_mem_nameAll [] s.order).2 id h

theorem unlisted_of_nameOf {id : SignalId} (h : id ∈ s.order) (reserved : s.nameOf id ∈ reservedWords) :
    Unlisted (cleaned (m.signalName id)) := by
  have hget := s.get?_names_eq h
  rw [s.get?_names h] at hget
  exact m.unlisted_of_nameAll [] s.order (id, s.nameOf id) (Table.mem_of_get? hget) reserved

theorem taken_reserved_iff : (∀ n ∈ s.taken, n ∉ reservedWords) ↔
    ∀ id ∈ s.order, ¬ Unlisted (cleaned (m.signalName id)) := by
  constructor
  · intro free id hid unlisted
    exact free _ (s.legalName_mem_taken hid) (Verilog.legalName_reserved_iff.mpr unlisted)
  · intro listed n hn reserved
    obtain ⟨id, hid, rfl⟩ := s.mem_taken.mp hn
    exact listed id hid (s.unlisted_of_nameOf hid reserved)

end Stages

theorem text_header (M : Verilog.Module) : ∃ rest,
    M.text = "/* Generated by weld */\n\n" ++ "module " ++ M.name ++ "(" ++ rest := by
  refine ⟨", ".intercalate (M.ports.map (·.name)) ++ (");\n" ++
    (String.join (M.ports.map Verilog.Port.text) ++ (String.join (M.nets.map Verilog.Net.text) ++
      (String.join (M.assigns.map Verilog.Assign.text) ++
        (String.join (M.processes.map Verilog.AlwaysBlock.text) ++ "endmodule\n"))))), ?_⟩
  unfold Verilog.Module.text
  simp only [String.append_assoc]

/-- The header of a generated module has the name that was given. All other names are of
letters, digits and underscores, with no digit at the front, and none of the keywords that
the generator knows. All names are legal if, and only if, the one of the module is, and no
signal that is named was added under a reserved word that the generator does not know. -/
theorem generated_identifiers_legal_iff {m : Netlist} {name : String} {targets : List Target}
    {g : Generated} (generated : m.generate name targets = .ok g) :
    (∃ rest, g.text = "/* Generated by weld */\n\n" ++ "module " ++ name ++ "(" ++ rest) ∧
    (∀ n ∈ g.names.values ++ g.verilog.declared, matchesPattern n = true ∧ n ∉ keywords) ∧
    ((∀ n ∈ name :: (g.names.values ++ g.verilog.declared), isLegal n = true) ↔
      isLegal name = true ∧ ∀ id ∈ g.names.keys, ¬ Unlisted (cleaned (m.signalName id))) := by
  obtain ⟨s, rfl⟩ := generate_eq_ok.mp generated
  have l := s.layout_final name
  have mem_names : ∀ n, n ∈ (s.generated name).names.values ++ (s.generated name).verilog.declared ↔
      n ∈ s.taken ∨ n ∈ s.final.temps := by
    intro n
    rw [List.mem_append, l.mem_declared, or_iff_right_of_imp]
    intro hn
    obtain ⟨⟨id, _⟩, hp, rfl⟩ := List.mem_map.mp hn
    obtain ⟨hid, same⟩ := s.get?_names_iff.mp (Table.get?_of_mem s.names_nodup hp)
    exact .inl (same ▸ s.nameOf_mem_taken hid)
  have names : ∀ n ∈ (s.generated name).names.values ++ (s.generated name).verilog.declared,
      Verilog.isName n = true := fun n hn => l.known_isName ((mem_names n).mp hn)
  have keys : ∀ id, id ∈ (s.generated name).names.keys ↔ id ∈ s.order := fun _ => s.mem_names_keys
  refine ⟨text_header (s.generated name).verilog,
    fun n hn => Verilog.isName_iff_matchesPattern.mp (names n hn), ?_⟩
  rw [List.forall_mem_cons]
  refine and_congr_right fun _ => ?_
  simp only [keys, ← s.taken_reserved_iff]
  constructor
  · intro legal n hn
    have hn := (mem_names n).mpr (.inl hn)
    exact (Verilog.isLegal_iff_of_isName (names n hn)).mp (legal n hn)
  · intro free n hn
    refine (Verilog.isLegal_iff_of_isName (names n hn)).mpr ?_
    rcases (mem_names n).mp hn with hn | hn
    · exact free n hn
    · exact (l.steps.temps_not_reserved n hn).resolve_left (by simp [Stages.start, Body.temps])

/-- A signal that is named like a gate. -/
def gateName : Netlist := (({} : Netlist).addSignal "and" .bit).2

/-- The gate stays in the names, and the name of a module may even have blanks. -/
theorem gateName_is_emitted :
    (∃ g, gateName.generate "top" [.signal ⟨0⟩] = .ok g ∧ g.names = [(⟨0⟩, "and")] ∧
      isLegal "top" = true ∧
      ¬ ∀ n ∈ "top" :: (g.names.values ++ g.verilog.declared), isLegal n = true) ∧
    ∃ g rest, gateName.generate "my bridge" [.signal ⟨0⟩] = .ok g ∧ isLegal "my bridge" = false ∧
      g.text = "/* Generated by weld */\n\n" ++ "module " ++ "my bridge" ++ "(" ++ rest := by
  constructor
  · obtain ⟨g, hg, names⟩ : ∃ g, gateName.generate "top" [.signal ⟨0⟩] = .ok g ∧
        g.names = [(⟨0⟩, "and")] := ⟨_, rfl, by decide +kernel⟩
    obtain ⟨-, -, legal⟩ := generated_identifiers_legal_iff hg
    refine ⟨g, hg, names, by decide +kernel, fun all => (legal.mp all).2 ⟨0⟩ ?_ (by decide +kernel)⟩
    rw [names]
    exact List.mem_singleton.mpr rfl
  · obtain ⟨g, hg⟩ : ∃ g, gateName.generate "my bridge" [.signal ⟨0⟩] = .ok g := ⟨_, rfl⟩
    obtain ⟨⟨rest, text⟩, -⟩ := generated_identifiers_legal_iff hg
    exact ⟨g, rest, hg, by decide +kernel, text⟩

end NetBridge.Guest.Netlist
