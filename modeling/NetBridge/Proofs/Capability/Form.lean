import NetBridge.Capability.Form
import NetBridge.Proofs.Json.Form

/-! # Specs and signatures read back

What is written of a group of specs is no scalar, whatever its fields are called: a scalar
is read from an object only where the object carries `null`, and no spec is written so. -/
namespace NetBridge

open Form

theorem Direction.form_readsBack : Direction.form.ReadsBack fun _ => True :=
  choice_readsBack ofText?_text

theorem Flow.form_readsBack : Flow.form.ReadsBack fun _ => True :=
  choice_readsBack fun f => by cases f <;> decide

theorem Role.form_readsBack : Role.form.ReadsBack fun _ => True :=
  choice_readsBack ofText?_text

/-- Values that can stand for a spec of all fields: none is written as `null`, and none is
read from an object without a `null`. -/
structure Form.Scalar {α : Type} (form : Form α) : Prop where
  given : ∀ a, form.write a ≠ .null
  apart : ∀ depth entries, (∀ p ∈ entries, p.2 ≠ Json.null) → form.read depth (.object entries) = none

theorem Form.natBits_scalar (bits : Nat) : (natBits bits).Scalar where
  given _ := nofun
  apart _ _ _ := rfl

theorem Form.choice_scalar {α : Type} (ofText? : String → Option α) (name : α → String) :
    (choice ofText? name).Scalar where
  given _ := nofun
  apart depth entries full := by
    match entries with
    | [] => rfl
    | (_, j) :: _ :: _ => cases j <;> rfl
    | [(s, j)] =>
      have present : j ≠ .null := full _ List.mem_cons_self
      cases j with
      | null => contradiction
      | _ => rfl

namespace Spec

variable {α : Type} {valid : α → Prop} {scalar : Form α}

mutual

/-- The values are valid, and the fields of a group have distinct names, at every depth. -/
def Storable (valid : α → Prop) : Spec α → Prop
  | .leaf value => valid value
  | .group fields => (Table.keys fields).Nodup ∧ FieldsStorable valid fields

def FieldsStorable (valid : α → Prop) : List (String × Spec α) → Prop
  | [] => True
  | (_, spec) :: rest => Storable valid spec ∧ FieldsStorable valid rest

end

theorem fieldsToJson_eq (write : α → Json) (fields : List (String × Spec α)) :
    fieldsToJson write fields = fields.map fun p => (p.1, toJson write p.2) := by
  induction fields with
  | nil => rfl
  | cons p rest ih => rw [fieldsToJson, ih, List.map_cons]

theorem toJson_ne_null (h : scalar.Scalar) : ∀ spec : Spec α, toJson scalar.write spec ≠ .null
  | .leaf value => h.given value
  | .group _ => nofun

/-- Nothing that is written of a group is read as a scalar. -/
theorem group_apart (h : scalar.Scalar) (fields : List (String × Spec α)) (depth : Nat) :
    scalar.read depth (toJson scalar.write (.group fields)) = none := by
  refine h.apart depth _ ?_
  rw [fieldsToJson_eq, List.forall_mem_map]
  exact fun p _ => toJson_ne_null h p.2

mutual

theorem plain_toJson (h : scalar.ReadsBack valid) :
    ∀ {spec : Spec α}, Storable valid spec → (toJson scalar.write spec).Plain
  | .leaf _, ok => h.plain ok
  | .group fields, ok => .object (by
    rw [fieldsToJson_eq, List.forall_mem_map]
    exact plain_fields h ok.2)

theorem plain_fields (h : scalar.ReadsBack valid) : ∀ {fields : List (String × Spec α)},
    FieldsStorable valid fields → ∀ p ∈ fields, (toJson scalar.write p.2).Plain
  | [], _ => by simp
  | _ :: _, ok => List.forall_mem_cons.mpr ⟨plain_toJson h ok.1, plain_fields h ok.2⟩

end

theorem ofJson_leaf {read : Nat → Json → Option α} {depth : Nat} {j : Json} {value : α}
    (scalar : read depth j = some value) : ofJson read depth j = some (.leaf value) := by
  cases depth <;> simp [ofJson, scalar]

theorem ofJson_group {read : Nat → Json → Option α} {depth : Nat} {entries : List (String × Json)}
    {fields : List (String × Spec α)} (apart : read (depth + 1) (.object entries) = none)
    (inner : entries.mapM (fun p => (ofJson read depth p.2).map (p.1, ·)) = some fields) :
    ofJson read (depth + 1) (.object entries) = some (.group (Table.ofPairs fields)) := by
  simp [ofJson, apart, inner]

mutual

theorem ofJson_toJson (h : scalar.ReadsBack valid) (hs : scalar.Scalar) : ∀ {spec : Spec α},
    Storable valid spec → ∀ {depth : Nat}, (toJson scalar.write spec).nesting ≤ depth →
      ofJson scalar.read depth (toJson scalar.write spec) = some spec
  | .leaf value, ok, depth, room => ofJson_leaf (h.read (a := value) ok room)
  | .group fields, ok, _, room => by
    have apart := group_apart hs fields
    obtain ⟨depth, rfl, inner⟩ := Json.nesting_object_le.mp room
    rw [toJson] at apart ⊢
    rw [fieldsToJson_eq] at inner apart ⊢
    rw [List.forall_mem_map] at inner
    have read := mapM_named fun p hp => ofJson_fields h hs ok.2 p hp (inner p hp)
    rw [ofJson_group (apart _) read, Table.ofPairs_eq_self ok.1]

theorem ofJson_fields (h : scalar.ReadsBack valid) (hs : scalar.Scalar) :
    ∀ {fields : List (String × Spec α)}, FieldsStorable valid fields → ∀ p ∈ fields,
      ∀ {depth : Nat}, (toJson scalar.write p.2).nesting ≤ depth →
        ofJson scalar.read depth (toJson scalar.write p.2) = some p.2
  | [], _ => by simp
  | _ :: _, ok => List.forall_mem_cons.mpr ⟨ofJson_toJson h hs ok.1, ofJson_fields h hs ok.2⟩

end

theorem form_readsBack (h : scalar.ReadsBack valid) (hs : scalar.Scalar) :
    (form scalar).ReadsBack (Storable valid) where
  plain := plain_toJson h
  read ok room := ofJson_toJson h hs ok room

/-- The text of a group is never read as a spec for all fields, however deep it is. -/
theorem parse?_group_ne_leaf (h : scalar.ReadsBack valid) (hs : scalar.Scalar)
    {fields : List (String × Spec α)} (ok : Storable valid (.group fields)) (value : α) :
    (form scalar).parse? ((form scalar).print (.group fields)) ≠ some (.leaf value) := by
  have apart := group_apart hs fields
  rw [Form.parse?, Form.print, Json.read?_print ((form_readsBack h hs).plain ok)]
  change ofJson scalar.read maxDepth (toJson scalar.write (.group fields)) ≠ _
  rw [toJson] at apart ⊢
  cases maxDepth with
  | zero => simp [ofJson, apart]
  | succ depth => simp [ofJson, apart, Option.bind_eq_some_iff]

end Spec

namespace Member

mutual

/-- Widths are numbers of 32 bits, and no interface names two of its members alike. -/
def Storable : Member → Prop
  | port _ shape => shape.Storable
  | interface _ members => (Table.keys members).Nodup ∧ MembersStorable members

def MembersStorable : List (String × Member) → Prop
  | [] => True
  | (_, m) :: rest => Storable m ∧ MembersStorable rest

end

theorem membersToJson_eq (members : List (String × Member)) :
    membersToJson members = members.map fun p => (p.1, p.2.toJson) := by
  induction members with
  | nil => rfl
  | cons p rest ih => rw [membersToJson, ih, List.map_cons]

mutual

theorem plain_toJson : ∀ {m : Member}, m.Storable → m.toJson.Plain
  | port _ _, ok => .variant (by simp [Flow.form_readsBack.plain, shape_readsBack.plain ok])
  | interface _ members, ok => by
    have inner : (Json.object (membersToJson members)).Plain := .object (by
      rw [membersToJson_eq, List.forall_mem_map]
      exact plain_members ok.2)
    exact .variant (by simp [Flow.form_readsBack.plain, inner])

theorem plain_members : ∀ {members : List (String × Member)}, MembersStorable members →
    ∀ p ∈ members, p.2.toJson.Plain
  | [], _ => by simp
  | _ :: _, ok => List.forall_mem_cons.mpr ⟨plain_toJson ok.1, plain_members ok.2⟩

end

mutual

theorem ofJson_toJson : ∀ {m : Member}, m.Storable → ∀ {n : Nat}, m.toJson.nesting ≤ n →
    ofJson n m.toJson = some m
  | port flow s, ok, _, room => by
    obtain ⟨depth, rfl, inner⟩ := Json.nesting_variant_le.mp room
    have inside := inner ("shape", Form.shape.write s) (by simp)
    obtain ⟨depth, rfl, -⟩ := Json.nesting_object_le.mp inside
    have flow (depth : Nat) := Flow.form_readsBack.need (a := flow) trivial (Nat.zero_le depth)
    -- A port is all that three containers have room for, and has a clause of its own there.
    cases depth with
    | zero =>
      refine variant?_bind ?_
      exact record?_bind rfl (by decide) (by simp [flow, shape_readsBack.need (a := s) ok inside])
    | succ depth =>
      refine variant?_bind ?_
      exact fields?_bind rfl (by decide) (by simp [flow, shape_readsBack.need (a := s) ok inside])
  | interface flow members, ok, _, room => by
    obtain ⟨_, rfl, payload⟩ := Json.nesting_variant_le.mp room
    have signature := payload ("signature", .object [("members", .object (membersToJson members))])
      (by simp)
    obtain ⟨depth, rfl, inner⟩ := Json.nesting_variant_le.mp signature
    rw [membersToJson_eq, List.forall_mem_map] at inner
    have read := mapM_named fun p hp => ofJson_members ok.2 p hp (inner p hp)
    have flow := Flow.form_readsBack.need (a := flow) trivial (Nat.zero_le (depth + 2))
    have only (j : Json) : fields? ["members"] (.object [("members", j)]) = some [some j] :=
      fields?_object rfl (by decide)
    refine variant?_bind (fields?_bind rfl (by decide) ?_)
    simp [only, membersToJson_eq, read, flow, Table.ofPairs_eq_self ok.1]

theorem ofJson_members : ∀ {members : List (String × Member)}, MembersStorable members →
    ∀ p ∈ members, ∀ {n : Nat}, p.2.toJson.nesting ≤ n → ofJson n p.2.toJson = some p.2
  | [], _ => by simp
  | _ :: _, ok => List.forall_mem_cons.mpr ⟨ofJson_toJson ok.1, ofJson_members ok.2⟩

end

theorem form_readsBack : form.ReadsBack Storable where
  plain := plain_toJson
  read ok room := ofJson_toJson ok room

theorem write_table (members : Table String Member) :
    form.table.write members = .object (membersToJson members) :=
  congrArg Json.object (membersToJson_eq members).symm

end Member

namespace Signature

def Storable (s : Signature) : Prop := s.keys.Nodup ∧ ∀ p ∈ s, p.2.Storable

theorem form_readsBack : form.ReadsBack Storable where
  plain {s} ok := .object (by
    have members := Member.form_readsBack.table.plain ok
    rw [Member.write_table] at members
    simpa using members)
  read {s _} ok room := by
    obtain ⟨depth, rfl, inner⟩ := Json.nesting_object_le.mp room
    have inside : (Member.form.table.write s).nesting ≤ depth := by
      rw [Member.write_table]
      exact inner _ List.mem_cons_self
    have members := Member.form_readsBack.table.need ok inside
    rw [Member.write_table] at members
    exact record?_bind rfl (by decide) members

end Signature

end NetBridge
