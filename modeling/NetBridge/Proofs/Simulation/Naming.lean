import Mathlib.Data.List.Perm.Basic
import NetBridge.Proofs.Board.Fields
import NetBridge.Proofs.Simulation.Setup

/-! # Names of simulated signals

A leaf that is requested gets a port, called after its resource and its field path, and a signal
for each of its roles, called after the port and the role. Nobody looks whether a name has been
given before. A name tells its role, but not the leaf: the same leaf may be made twice, and the
names of different leaves may read alike once they have been joined. -/
namespace NetBridge

theorem toList_joined (name field : String) :
    (s!"{name}_{field}").toList = name.toList ++ '_' :: field.toList := by
  change (name ++ "_" ++ field).toList = _
  simp

theorem toList_pathName (name : String) (path : List String) :
    (pathName name path).toList = ['_'].intercalate ((name :: path).map String.toList) := by
  induction path generalizing name with
  | nil => simp [pathName]
  | cons field rest ih =>
    have longer := ih s!"{name}_{field}"
    rw [List.map_cons, toList_joined] at longer
    refine longer.trans ?_
    cases rest <;> simp

namespace Simulation

/-- A leaf of a board, by its resource and its field path. -/
structure Place where
  key : String × Option Nat
  path : List String
deriving DecidableEq

namespace Place

/-- The name of the port. -/
def port (p : Place) : String := pathName (logicalName p.key.1 p.key.2) p.path

def roleName (p : Place) (r : Role) : String := s!"pad_{p.port}_{r.text}"

/-- What the underscores of the port's name are put between. -/
def pieces (p : Place) : List String := p.key.1 :: (p.key.2.toList.map toString ++ p.path)

theorem toList_port (p : Place) :
    p.port.toList = ['_'].intercalate (p.pieces.map String.toList) := by
  obtain ⟨⟨name, index⟩, path⟩ := p
  cases index with
  | none => exact toList_pathName name path
  | some i => exact toList_pathName name (toString i :: path)

end Place

/-- Where the text of a role ends with the text of another one, after an underscore, the two are
the same. -/
theorem role_eq_of_suffix : ∀ r s : Role,
    ('_' :: r.text.toList) <:+ ('_' :: s.text.toList) → r = s := by
  intro r s
  cases r <;> cases s <;> decide

/-- The name of a signal tells its role and the name of its port. -/
theorem Place.roleName_inj {p q : Place} {r s : Role} (h : p.roleName r = q.roleName s) :
    p.port = q.port ∧ r = s := by
  have ends : p.port.toList ++ ('_' :: r.text.toList) =
      q.port.toList ++ ('_' :: s.text.toList) := by
    have texts : ("pad_" ++ p.port ++ "_" ++ r.text).toList =
        ("pad_" ++ q.port ++ "_" ++ s.text).toList := congrArg String.toList h
    simpa using texts
  have same : r = s := by
    rcases List.suffix_or_suffix_of_suffix (List.suffix_append p.port.toList _)
      (ends ▸ List.suffix_append q.port.toList _) with suffix | suffix
    · exact role_eq_of_suffix r s suffix
    · exact (role_eq_of_suffix s r suffix).symm
  rw [same] at ends
  exact ⟨String.toList_inj.mp (List.append_cancel_right ends), same⟩

/-- A leaf that has been given a port and a signal for each of its roles. -/
structure Leaf where
  place : Place
  roles : List Role

def Leaf.names (l : Leaf) : List String := l.place.port :: l.roles.map l.place.roleName

section Leaves

variable {leaves : List Leaf}

/-- Names only repeat if ports do, or where a port is called like a role of another one. -/
theorem names_nodup_iff (once : ∀ l ∈ leaves, l.roles.Nodup) :
    (leaves.flatMap Leaf.names).Nodup ↔ (leaves.map (·.place.port)).Nodup ∧
      ∀ a ∈ leaves, ∀ b ∈ leaves, ∀ r ∈ b.roles, a.place.port ≠ b.place.roleName r := by
  have sorted := List.map_append_flatMap_perm leaves (·.place.port)
    fun l => l.roles.map l.place.roleName
  rw [show (leaves.flatMap Leaf.names).Nodup ↔ _ from sorted.nodup_iff.symm, List.nodup_append]
  constructor
  · rintro ⟨ports, -, apart⟩
    refine ⟨ports, fun a ha b hb r hr => ?_⟩
    have port : a.place.port ∈ leaves.map (·.place.port) := List.mem_map.mpr ⟨a, ha, rfl⟩
    exact apart _ port _ (List.mem_flatMap.mpr ⟨b, hb, List.mem_map_of_mem hr⟩)
  · rintro ⟨ports, apart⟩
    refine ⟨ports, List.nodup_flatMap.mpr ⟨fun l hl => ?_, ?_⟩, ?_⟩
    · exact (once l hl).map fun r s h => (Place.roleName_inj h).2
    · refine (List.pairwise_map.mp ports).imp fun {a b} different => ?_
      intro name ha hb
      obtain ⟨r, -, rfl⟩ := List.mem_map.mp ha
      obtain ⟨s, -, same⟩ := List.mem_map.mp hb
      exact different (Place.roleName_inj same).1.symm
    · intro port hport name hname same
      obtain ⟨a, ha, rfl⟩ := List.mem_map.mp hport
      obtain ⟨b, hb, hname⟩ := List.mem_flatMap.mp hname
      obtain ⟨r, hr, rfl⟩ := List.mem_map.mp hname
      exact apart a ha b hb r hr same

/-- Ports repeat if leaves do, or where different leaves have ports of one name. -/
theorem ports_nodup_iff : (leaves.map (·.place.port)).Nodup ↔ (leaves.map (·.place)).Nodup ∧
    ∀ a ∈ leaves, ∀ b ∈ leaves, a.place ≠ b.place → a.place.port ≠ b.place.port := by
  have ports : leaves.map (·.place.port) = (leaves.map (·.place)).map Place.port := by simp
  rw [ports]
  constructor
  · intro nodup
    refine ⟨nodup.of_map, fun a ha b hb different same => different ?_⟩
    exact List.inj_on_of_nodup_map nodup (List.mem_map_of_mem ha) (List.mem_map_of_mem hb) same
  · rintro ⟨nodup, apart⟩
    refine nodup.map_on fun p hp q hq same => ?_
    obtain ⟨a, ha, rfl⟩ := List.mem_map.mp hp
    obtain ⟨b, hb, rfl⟩ := List.mem_map.mp hq
    exact not_imp_not.mp (apart a ha b hb) same

end Leaves

/-- Nothing on the board can be taken for something else once names are joined: no name has an
underscore in it, no resource is called like the front of a role's name, and no field of a
resource like an index. -/
structure Plain (b : Board) : Prop where
  resources : ∀ r ∈ b.resources, '_' ∉ r.name.toList ∧ r.name ≠ "pad"
  fields : ∀ key, ∀ path ∈ b.leafPaths key,
    (∀ field ∈ path, '_' ∉ field.toList) ∧ ∀ i : Nat, path.head? ≠ some (toString i)

/-- The leaf is on the board. -/
def Place.On (p : Place) (b : Board) : Prop := p.path ∈ b.leafPaths p.key

namespace Place

variable {b : Board} {p q : Place}

theorem On.exists_resource (h : p.On b) : ∃ r ∈ b.resources, r.name = p.key.1 := by
  rw [On, Board.leafPaths] at h
  cases found : b.resource? p.key.1 p.key.2 with
  | none =>
    rw [found] at h
    cases h
  | some r =>
    obtain ⟨known, key⟩ := Board.resource?_eq_some found
    exact ⟨r, known, congrArg Prod.fst key⟩

theorem underscore_notMem_toString (i : Nat) : '_' ∉ (toString i).toList := by
  change '_' ∉ i.repr.toList
  rw [Nat.toList_repr]
  exact Nat.underscore_not_in_toDigits

theorem toString_inj {i j : Nat} (h : toString i = toString j) : i = j := by
  have digits : Nat.toDigits 10 i = Nat.toDigits 10 j := by
    rw [← Nat.toList_repr, ← Nat.toList_repr]
    exact congrArg String.toList h
  rw [← Nat.ofDigitChars_ten_toDigits (n := i), digits, Nat.ofDigitChars_ten_toDigits]

/-- The pieces of a plain name are found again between its underscores. -/
theorem On.splitOn_port (h : p.On b) (plain : Plain b) :
    p.port.toList.splitOn '_' = p.pieces.map String.toList := by
  obtain ⟨r, known, name⟩ := h.exists_resource
  rw [toList_port]
  refine List.splitOn_intercalate '_' ?_ (by simp [pieces])
  simp only [pieces, List.map_cons, List.map_append, List.forall_mem_cons,
    List.forall_mem_append, List.forall_mem_map]
  exact ⟨name ▸ (plain.resources r known).1, fun i _ => underscore_notMem_toString i,
    (plain.fields _ _ h).1⟩

/-- Different leaves of a plain board have ports of different names. -/
theorem On.port_inj (hp : p.On b) (hq : q.On b) (plain : Plain b) (same : p.port = q.port) :
    p = q := by
  have pieces : p.pieces = q.pieces := by
    have split := congrArg (·.toList.splitOn '_') same
    rw [hp.splitOn_port plain, hq.splitOn_port plain] at split
    exact (List.map_injective_iff.mpr fun _ _ => String.toList_inj.mp) split
  have pFields := (plain.fields _ _ hp).2
  have qFields := (plain.fields _ _ hq).2
  obtain ⟨⟨name, index⟩, path⟩ := p
  obtain ⟨⟨name', index'⟩, path'⟩ := q
  obtain ⟨rfl, tails⟩ := List.cons.inj pieces
  cases index with
  | none =>
    cases index' with
    | none =>
      obtain rfl : path = path' := tails
      rfl
    | some j =>
      obtain rfl : path = toString j :: path' := tails
      exact absurd rfl (pFields j)
  | some i =>
    cases index' with
    | none =>
      obtain rfl : toString i :: path = path' := tails
      exact absurd rfl (qFields i)
    | some j =>
      have split : toString i :: path = toString j :: path' := tails
      obtain ⟨digits, rfl⟩ := List.cons.inj split
      rw [toString_inj digits]

/-- And none of them is called like a role. -/
theorem On.port_ne_roleName (h : p.On b) (plain : Plain b) (q : Place) (r : Role) :
    p.port ≠ q.roleName r := by
  intro same
  obtain ⟨resource, known, name⟩ := h.exists_resource
  have texts : p.port.toList = "pad".toList ++ '_' :: (q.port ++ "_" ++ r.text).toList := by
    have pad : p.port.toList = ("pad_" ++ q.port ++ "_" ++ r.text).toList :=
      congrArg String.toList same
    simpa using pad
  have split := h.splitOn_port plain
  rw [texts, List.splitOn_append_cons_self_of_not_mem (by decide)] at split
  have first : "pad".toList = p.key.1.toList := (List.cons.inj split).1
  exact (plain.resources resource known).2 (name.trans (String.toList_inj.mp first).symm)

end Place

end Simulation

end NetBridge
