import NetBridge.Capability.Lookup
import NetBridge.Proofs.Table

/-! # Signatures that match

A signature whose members have distinct names matches itself, whatever is nested in it,
and the signature of a leaf matches what was built if every role got a signal of the
shape that the role has on the pad. -/
namespace NetBridge

namespace Member

mutual

/-- No interface inside the member names two of its members alike. -/
def Distinct : Member → Prop
  | port .. => True
  | interface _ members => (Table.keys members).Nodup ∧ AllDistinct members

def AllDistinct : List (String × Member) → Prop
  | [] => True
  | (_, m) :: rest => m.Distinct ∧ AllDistinct rest

end

theorem allDistinct_iff {members : List (String × Member)} :
    AllDistinct members ↔ ∀ p ∈ members, p.2.Distinct := by
  induction members with
  | nil => simp [AllDistinct]
  | cons p rest ih => simp [AllDistinct, ih]

mutual

theorem agrees_self : ∀ {m : Member}, m.Distinct → m.agrees m = true
  | port .., _ => by simp [agrees]
  | interface _ members, h => by
    have within : agreesWithin members members = true :=
      agreesWithin_of_subset h.2 fun name m hm => Table.get?_of_mem h.1 hm
    simp [agrees, within]

/-- Members agree with a table in which they all are found. -/
theorem agreesWithin_of_subset {all : List (String × Member)} :
    ∀ {members : List (String × Member)}, AllDistinct members →
      (∀ name m, (name, m) ∈ members → Table.get? all name = some m) →
      agreesWithin members all = true
  | [], _, _ => rfl
  | (name, m) :: rest, h, found => by
    have others : agreesWithin rest all = true :=
      agreesWithin_of_subset h.2 fun name' m' hm => found name' m' (List.mem_cons_of_mem _ hm)
    rw [agreesWithin, found name m List.mem_cons_self]
    simp [agrees_self h.1, others]

end

theorem eq_of_agrees_port {f : Flow} {s : Shape} {m : Member} (h : (port f s).agrees m = true) :
    m = port f s := by
  cases m with
  | port g t =>
    simp only [agrees, Bool.and_eq_true, beq_iff_eq] at h
    rw [h.1, h.2]
  | interface g members => simp [agrees] at h

end Member

namespace Role

theorem text_injective : Function.Injective text := by
  intro r s h
  have same := ofText?_text r
  rw [h, ofText?_text] at same
  exact (Option.some.inj same).symm

theorem nodup_all : all.Nodup := by decide

end Role

namespace Signature

/-- The names of the members are distinct, at every depth. -/
def Distinct (s : Signature) : Prop := (Table.keys s).Nodup ∧ Member.AllDistinct s

/-- Nothing sets two signatures apart if every declared member is found to agree, and
every built one is declared. -/
theorem difference?_eq_none {declared built : Signature}
    (covered : ∀ p ∈ declared, ∃ n, Table.get? built p.1 = some n ∧ p.2.agrees n = true)
    (known : ∀ name ∈ Table.keys built, name ∈ Table.keys declared) :
    declared.difference? built = none := by
  have complete : shortfall? declared built = none := by
    rw [shortfall?, List.findSome?_eq_none_iff]
    rintro ⟨name, m⟩ hm
    obtain ⟨n, hn, hagrees⟩ := covered _ hm
    simp [hn, hagrees]
  have closed : surplus? declared built = none := by
    rw [surplus?, Option.map_eq_none_iff, List.find?_eq_none]
    intro name hname
    simpa using Table.contains_iff.mpr (known name hname)
  rw [difference?, complete, closed]
  rfl

/-- Where nothing is missing or changed every declared member is found to agree. -/
theorem agrees_of_difference? {declared built : Signature} (h : declared.difference? built = none)
    {p : String × Member} (hp : p ∈ declared) :
    ∃ n, Table.get? built p.1 = some n ∧ p.2.agrees n = true := by
  have complete : shortfall? declared built = none := by
    cases hs : shortfall? declared built with
    | none => rfl
    | some d =>
      rw [difference?, hs] at h
      cases h
  have here := List.findSome?_eq_none_iff.mp complete p hp
  cases found : Table.get? built p.1 with
  | none => simp [found] at here
  | some n =>
    refine ⟨n, rfl, ?_⟩
    by_contra differs
    simp [found, differs] at here

theorem difference?_self {s : Signature} (h : s.Distinct) : s.difference? s = none :=
  difference?_eq_none
    (fun p hp => ⟨p.2, Table.get?_of_mem h.1 hp,
      Member.agrees_self (Member.allDistinct_iff.mp h.2 p hp)⟩)
    fun _ h => h

/-- The signature of a group is distinct if those of its fields are. -/
theorem distinct_interfaces {children : List (String × Signature)}
    (h : ∀ p ∈ children, p.2.Distinct) :
    Distinct (Table.ofPairs (children.map fun p => (p.1, .interface .outward p.2))) := by
  refine ⟨Table.nodup_keys_ofPairs _, Member.allDistinct_iff.mpr fun p hp => ?_⟩
  obtain ⟨q, hq, hvalue⟩ := Table.mem_ofPairs hp
  obtain ⟨child, hchild, rfl⟩ := List.mem_map.mp hq
  rw [← hvalue]
  exact h child hchild

/-- Members called after roles stand under distinct names. -/
theorem nodup_keys_roles {α : Type} {roles : List Role} (nodup : roles.Nodup) (f : Role → α) :
    (Table.keys (roles.map fun r => (r.text, f r))).Nodup := by
  have keys : Table.keys (roles.map fun r => (r.text, f r)) = roles.map Role.text := by
    simp [Table.keys]
  rw [keys]
  exact nodup.map Role.text_injective

theorem ofRoles_eq {roles : List Role} (nodup : roles.Nodup) (s : Shape) : ofRoles roles s =
    roles.map fun r => (r.text, .port r.flow ⟨r.width s.width, r.isData && s.signed⟩) :=
  Table.ofPairs_eq_self (nodup_keys_roles nodup _)

theorem distinct_ofRoles {roles : List Role} (nodup : roles.Nodup) (s : Shape) :
    (ofRoles roles s).Distinct := by
  rw [ofRoles_eq nodup]
  refine ⟨nodup_keys_roles nodup _, Member.allDistinct_iff.mpr fun p hp => ?_⟩
  obtain ⟨r, -, rfl⟩ := List.mem_map.mp hp
  trivial

end Signature

namespace Capability

/-- What is built for a leaf with a signal for each of its roles. -/
theorem built_leaf {m : Guest.Netlist} {name : String} {signature : Signature}
    {signals : Table Role Guest.SignalId} (distinct : signals.keys.Nodup) :
    (leaf name signature signals).built m =
      signals.map fun p => (p.1.text, .port p.1.flow (m.shapeOf p.2)) := by
  refine Table.ofPairs_eq_self ?_
  have texts := distinct.map Role.text_injective
  rwa [Table.keys, List.map_map] at texts ⊢

/-- A leaf passes its own check if it has one signal for each role, shaped like the
role on the pad. -/
theorem mismatch?_leaf {m : Guest.Netlist} {name : String} {roles : List Role} {s : Shape}
    {signals : Table Role Guest.SignalId} (nodup : roles.Nodup) (distinct : signals.keys.Nodup)
    (same : ∀ r, r ∈ signals.keys ↔ r ∈ roles)
    (shapes : ∀ p ∈ signals, m.shapeOf p.2 = ⟨p.1.width s.width, p.1.isData && s.signed⟩) :
    (leaf name (.ofRoles roles s) signals).mismatch? m = none := by
  let declared := fun r : Role =>
    (r.text, Member.port r.flow ⟨r.width s.width, r.isData && s.signed⟩)
  have built : (leaf name (.ofRoles roles s) signals).built m = signals.keys.map declared := by
    rw [built_leaf distinct, Table.keys, List.map_map]
    exact List.map_congr_left fun p hp => by simp [declared, shapes p hp]
  rw [mismatch?, built, signature, Signature.ofRoles_eq nodup]
  refine Signature.difference?_eq_none (fun p hp => ?_) fun name hname => ?_
  · obtain ⟨r, hr, rfl⟩ := List.mem_map.mp hp
    refine ⟨_, Table.get?_of_mem (Signature.nodup_keys_roles distinct _)
      (List.mem_map_of_mem ((same r).mpr hr)), Member.agrees_self trivial⟩
  · obtain ⟨q, hq, rfl⟩ := List.mem_map.mp hname
    obtain ⟨r, hr, rfl⟩ := List.mem_map.mp hq
    exact List.mem_map.mpr ⟨_, List.mem_map_of_mem ((same r).mp hr), rfl⟩

/-- A leaf that passes its own check has a signal for each role, shaped like the role on the
pad. -/
theorem shapeOf_of_mismatch? {m : Guest.Netlist} {name : String} {roles : List Role} {s : Shape}
    {signals : Table Role Guest.SignalId} (nodup : roles.Nodup) (distinct : signals.keys.Nodup)
    (passed : (leaf name (.ofRoles roles s) signals).mismatch? m = none) {r : Role}
    (hr : r ∈ roles) :
    ∃ id, (r, id) ∈ signals ∧ m.shapeOf id = ⟨r.width s.width, r.isData && s.signed⟩ := by
  have declared : (r.text, Member.port r.flow ⟨r.width s.width, r.isData && s.signed⟩) ∈
      Signature.ofRoles roles s := by
    rw [Signature.ofRoles_eq nodup]
    exact List.mem_map_of_mem hr
  obtain ⟨n, found, agrees⟩ := Signature.agrees_of_difference? passed declared
  obtain rfl := Member.eq_of_agrees_port agrees
  rw [built_leaf distinct] at found
  obtain ⟨⟨r', id⟩, member, same⟩ := List.mem_map.mp (Table.mem_of_get? found)
  obtain ⟨hname, hport⟩ := Prod.mk.inj same
  obtain rfl := Role.text_injective hname
  exact ⟨id, member, (Member.port.inj hport).2⟩

end Capability

end NetBridge
