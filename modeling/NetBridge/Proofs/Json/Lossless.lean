import NetBridge.Bridge.Basic
import NetBridge.Proofs.Capability.Form
import NetBridge.Proofs.Guest.Form
import NetBridge.Proofs.Host.Form
import NetBridge.Simulation.Kernel

/-! # Nothing is lost in JSON

What is stored as text reads as what it was, with tables in their order, and is written the
same again. A spec for each field never comes back as one for all of them. -/
namespace NetBridge

open Form

theorem PortInfo.form_readsBack : PortInfo.form.ReadsBack fun _ => True where
  plain _ := .object (by simp [PortDirection.form_readsBack.plain])
  read {p _} _ room := by
    obtain ⟨depth, rfl, -⟩ := Json.nesting_object_le.mp room
    have direction := PortDirection.form_readsBack.need (a := p.direction) trivial (Nat.zero_le depth)
    exact record?_bind rfl (by decide) (by simp [direction])

structure Connection.Storable (c : Connection) : Prop where
  source : c.source.Storable
  target : c.target.Storable

theorem Connection.form_readsBack : Connection.form.ReadsBack Connection.Storable where
  plain ok := .object (by
    simp [key_readsBack.plain ok.source, Guest.Target.form_readsBack.plain ok.target])
  read {c _} ok room := by
    obtain ⟨depth, rfl, inner⟩ := Json.nesting_object_le.mp room
    have target := Guest.Target.form_readsBack.need ok.target (inner ("target", _) (by simp))
    exact record?_bind rfl (by decide) (by simp [need_key ok.source, target])

def Simulation.Signal.Storable (s : Signal) : Prop := s.width < 2 ^ 32

theorem Simulation.Signal.form_readsBack : Signal.form.ReadsBack Signal.Storable where
  plain {s} ok := .object (by simp [plain_nat (n := s.width) ok])
  read {s _} ok room := by
    obtain ⟨depth, rfl, -⟩ := Json.nesting_object_le.mp room
    exact record?_bind rfl (by decide) (by simp [need_nat (n := s.width) ok])

/-- The types that are stored, with their forms and the values that they have: numbers are
within their bits, names in a table are distinct, and labels of an instance are sorted. -/
inductive Stored : (α : Type) → Form α → (α → Prop) → Prop where
  /-- An arena of whatever reads back, such as signals, or arenas of them. -/
  | arena {α : Type} {form : Form α} {valid : α → Prop} (items : form.ReadsBack valid) :
    Stored (Arena α) (.arena form) fun a => ∀ x ∈ a.toList, valid x
  | shape : Stored Shape .shape Shape.Storable
  | direction : Stored Direction Direction.form fun _ => True
  | role : Stored Role Role.form fun _ => True
  | directionSpec : Stored DirectionSpec (Spec.form Direction.form) (Spec.Storable fun _ => True)
  | rateSpec : Stored RateSpec (Spec.form (.natBits 8)) (Spec.Storable (· < 2 ^ 8))
  | target : Stored Guest.Target Guest.Target.form Guest.Target.Storable
  | guestExpr : Stored Guest.Expr Guest.Expr.form Guest.Expr.Storable
  | statement : Stored Guest.Statement Guest.Statement.form Guest.Statement.Storable
  | guest : Stored Guest.Netlist Guest.Netlist.form Guest.Netlist.Storable
  | hostExpr : Stored Host.Expr Host.Expr.form Host.Expr.Storable
  | assign : Stored Host.Assign Host.Assign.form Host.Assign.Storable
  | primitive : Stored Host.Primitive Host.Primitive.form Host.Primitive.Storable
  | blackBox : Stored Host.Instance Host.Instance.form Host.Instance.Storable
  | host : Stored Host.Netlist Host.Netlist.form Host.Netlist.Storable
  | port : Stored PortInfo PortInfo.form fun _ => True
  | connection : Stored Connection Connection.form Connection.Storable
  | signature : Stored Signature Signature.form Signature.Storable
  | member : Stored Member Member.form Member.Storable
  | simulated : Stored Simulation.Signal Simulation.Signal.form Simulation.Signal.Storable

theorem Stored.readsBack {α : Type} {form : Form α} {valid : α → Prop}
    (stored : Stored α form valid) : form.ReadsBack valid := by
  cases stored with
  | arena items => exact items.arena
  | shape => exact shape_readsBack
  | direction => exact Direction.form_readsBack
  | role => exact Role.form_readsBack
  | directionSpec => exact Spec.form_readsBack Direction.form_readsBack (choice_scalar _ _)
  | rateSpec => exact Spec.form_readsBack (natBits_readsBack (by decide)) (natBits_scalar 8)
  | target => exact Guest.Target.form_readsBack
  | guestExpr => exact Guest.Expr.form_readsBack
  | statement => exact Guest.Statement.form_readsBack
  | guest => exact Guest.Netlist.form_readsBack
  | hostExpr => exact Host.Expr.form_readsBack
  | assign => exact Host.Assign.form_readsBack
  | primitive => exact Host.Primitive.form_readsBack
  | blackBox => exact Host.Instance.form_readsBack
  | host => exact Host.Netlist.form_readsBack
  | port => exact PortInfo.form_readsBack
  | connection => exact Connection.form_readsBack
  | signature => exact Signature.form_readsBack
  | member => exact Member.form_readsBack
  | simulated => exact Simulation.Signal.form_readsBack

/-- The text of a value reads as the value, as long as its containers are not too deep for
the reader, and what was read is written as the same text. Of a spec for each field, no value
for all fields is read, however the fields are called and however deep they are. -/
theorem stored_text_reads_back :
    (∀ {α : Type} {form : Form α} {valid : α → Prop}, Stored α form valid →
      ∀ v, valid v → (form.write v).nesting ≤ Form.maxDepth →
        form.parse? (form.print v) = some v ∧
        ∀ w, form.parse? (form.print v) = some w → form.print w = form.print v) ∧
    (∀ fields value, Spec.Storable (fun _ => True) (.group fields) →
      (Spec.form Direction.form).parse? ((Spec.form Direction.form).print (.group fields)) ≠
        some (.leaf value)) ∧
    ∀ fields value, Spec.Storable (· < 2 ^ 8) (.group fields) →
      (Spec.form (.natBits 8)).parse? ((Spec.form (.natBits 8)).print (.group fields)) ≠
        some (.leaf value) := by
  refine ⟨fun stored v ok room => ?_, fun fields value ok => ?_, fun fields value ok => ?_⟩
  · have parsed := stored.readsBack.parse?_print ok room
    refine ⟨parsed, fun w hw => ?_⟩
    rw [Option.some.inj (parsed.symm.trans hw)]
  · exact Spec.parse?_group_ne_leaf Direction.form_readsBack (choice_scalar _ _) ok value
  · exact Spec.parse?_group_ne_leaf (natBits_readsBack (by decide)) (natBits_scalar 8) ok value

/-- One field, called like a direction, and nothing said of it. -/
def fieldCalledI : DirectionSpec := .group [("i", .group [])]

theorem fieldCalledI_reads_back : Spec.Storable (fun _ => True) fieldCalledI ∧
    ((Spec.form Direction.form).write fieldCalledI).nesting ≤ Form.maxDepth ∧
    (Spec.form Direction.form).parse? "\x7b\"i\":\x7b\x7d\x7d" = some fieldCalledI ∧
    (Spec.form Direction.form).parse? "\x7b\"i\":\x7b\x7d\x7d" ≠ some (.leaf .input) := by
  have ok : Spec.Storable (fun _ => True) fieldCalledI :=
    ⟨List.nodup_singleton _, ⟨List.nodup_nil, trivial⟩, trivial⟩
  have room : ((Spec.form Direction.form).write fieldCalledI).nesting ≤ Form.maxDepth := by decide
  have text : (Spec.form Direction.form).print fieldCalledI = "\x7b\"i\":\x7b\x7d\x7d" := by decide
  obtain ⟨reads, apart, -⟩ := stored_text_reads_back
  rw [← text]
  exact ⟨ok, room, (reads .directionSpec fieldCalledI ok room).1, apart _ .input ok⟩

end NetBridge
