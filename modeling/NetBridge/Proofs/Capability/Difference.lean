import Mathlib.Data.List.Perm.Subperm
import NetBridge.Proofs.Capability.Signature

/-! # What sets signatures apart

Signatures are compared by name, so the order of members counts at no depth. A search goes
through the declared members in their order and then through the built ones, and finds
nothing exactly if the two are the same. -/
namespace NetBridge

namespace Member

mutual

/-- The same flows and shapes, and within an interface the same members. -/
inductive Same : Member → Member → Prop
  | port (flow : Flow) (shape : Shape) : Same (port flow shape) (port flow shape)
  | interface (flow : Flow) {members others : List (String × Member)} :
    SameMembers members others → Same (interface flow members) (interface flow others)

/-- The same names, in whatever order, and the same member under each of them. -/
inductive SameMembers : List (String × Member) → List (String × Member) → Prop
  | named {members others : List (String × Member)} :
    (∀ name, name ∈ Table.keys members ↔ name ∈ Table.keys others) →
    (∀ name m n, (name, m) ∈ members → (name, n) ∈ others → Same m n) →
    SameMembers members others

end

mutual

theorem Same.symm : ∀ {m n : Member}, m.Same n → n.Same m
  | _, _, .port flow shape => .port flow shape
  | _, _, .interface flow within => .interface flow within.symm

theorem SameMembers.symm : ∀ {members others : List (String × Member)},
    SameMembers members others → SameMembers others members
  | _, _, .named names each =>
    .named (fun name => (names name).symm) fun name n m hn hm => (each name m n hm hn).symm

end

/-- Every member has one of its name among the others that agrees with it. -/
theorem agreesWithin_iff {members others : List (String × Member)} :
    agreesWithin members others = true ↔
      ∀ p ∈ members, ∃ n, Table.get? others p.1 = some n ∧ p.2.agrees n = true := by
  induction members with
  | nil => simp [agreesWithin]
  | cons p rest ih =>
    rw [agreesWithin, Bool.and_eq_true, ih, List.forall_mem_cons]
    cases h : Table.get? others p.1 <;> simp

/-- Among members with distinct names, those that find a partner of their name have the
names of as many others. -/
theorem names_eq_of_covered {members others : List (String × Member)}
    (distinct : (Table.keys members).Nodup) (length : members.length = others.length)
    (covered : ∀ name ∈ Table.keys members, name ∈ Table.keys others) (name : String) :
    name ∈ Table.keys members ↔ name ∈ Table.keys others := by
  have enough : (Table.keys others).length ≤ (Table.keys members).length := by
    simp [Table.keys, length]
  exact ((List.Nodup.subperm distinct covered).perm_of_length_le enough).mem_iff

/-- Members with distinct names are as many as others of the same names. -/
theorem length_eq_of_names {members others : List (String × Member)}
    (distinct : (Table.keys members).Nodup) (distinct' : (Table.keys others).Nodup)
    (names : ∀ name, name ∈ Table.keys members ↔ name ∈ Table.keys others) :
    members.length = others.length := by
  have perm := (List.perm_ext_iff_of_nodup distinct distinct').mpr names
  simpa [Table.keys] using perm.length_eq

/-- One comparison of lengths and a search in one direction see all there is to see. -/
theorem agreeing_iff_same {members others : List (String × Member)}
    (distinct : (Table.keys members).Nodup) (distinct' : (Table.keys others).Nodup)
    (each : ∀ p ∈ members, ∀ n, (p.1, n) ∈ others → (p.2.agrees n = true ↔ p.2.Same n)) :
    members.length = others.length ∧ agreesWithin members others = true ↔
      SameMembers members others := by
  rw [agreesWithin_iff]
  constructor
  · rintro ⟨length, covered⟩
    have names := names_eq_of_covered distinct length fun name hname => by
      obtain ⟨p, hp, rfl⟩ := List.mem_map.mp hname
      obtain ⟨n, found, -⟩ := covered p hp
      exact Table.mem_keys_of_get? found
    refine .named names fun name m n hm hn => ?_
    obtain ⟨n', found, agrees⟩ := covered (name, m) hm
    obtain rfl : n' = n := Option.some.inj (found.symm.trans (Table.get?_of_mem distinct' hn))
    exact (each (name, m) hm n' hn).mp agrees
  · rintro ⟨names, same⟩
    refine ⟨length_eq_of_names distinct distinct' names, fun p hp => ?_⟩
    obtain ⟨n, found⟩ := Table.exists_get?_of_mem_keys ((names p.1).mp (Table.mem_keys_of_mem hp))
    have hn := Table.mem_of_get? found
    exact ⟨n, found, (each p hp n hn).mpr (same p.1 p.2 n hp hn)⟩

mutual

/-- Members agree exactly if they are the same, whatever is nested in them. -/
theorem agrees_iff_same : ∀ {m n : Member}, m.Distinct → n.Distinct →
    (m.agrees n = true ↔ m.Same n)
  | port f s, port g t, _, _ => by
    rw [agrees, Bool.and_eq_true, beq_iff_eq, beq_iff_eq]
    constructor
    · rintro ⟨rfl, rfl⟩
      exact .port f s
    · rintro ⟨⟩
      exact ⟨rfl, rfl⟩
  | port .., interface .., _, _ => ⟨nofun, nofun⟩
  | interface .., port .., _, _ => ⟨nofun, nofun⟩
  | interface f members, interface g others, h, h' => by
    have within := agreeing_iff_same h.1 h'.1 fun p hp n hn =>
      each_agrees_iff_same h.2 p hp (allDistinct_iff.mp h'.2 _ hn)
    rw [agrees, Bool.and_eq_true, Bool.and_eq_true, beq_iff_eq, beq_iff_eq, and_assoc, within]
    constructor
    · rintro ⟨rfl, same⟩
      exact .interface f same
    · intro same
      cases same with
      | interface _ within => exact ⟨rfl, within⟩

theorem each_agrees_iff_same : ∀ {members : List (String × Member)}, AllDistinct members →
    ∀ p ∈ members, ∀ {n : Member}, n.Distinct → (p.2.agrees n = true ↔ p.2.Same n)
  | [], _ => by simp
  | _ :: _, h => List.forall_mem_cons.mpr ⟨agrees_iff_same h.1, each_agrees_iff_same h.2⟩

end

end Member

/-- The member that a difference is about. -/
def SignatureDifference.member : SignatureDifference → String
  | missing name | changed name _ _ | undeclared name => name

theorem SignatureDifference.text_names_member (d : SignatureDifference) :
    ∃ rest, d.text = "member '" ++ d.member ++ "'" ++ rest := by
  have quote {tail : String} : ("' " : String) ++ tail = "'" ++ (" " ++ tail) := by
    rw [← String.append_assoc]
    rfl
  cases d with
  | missing name =>
    have text : (missing name).text = "member '" ++ name ++ ("' " ++ "is missing") := rfl
    exact ⟨" " ++ "is missing", by rw [text, quote, member, ← String.append_assoc]⟩
  | changed name declared built =>
    have text : (changed name declared built).text = "member '" ++ name ++
      ("' " ++ "is declared as ") ++ declared.text ++ " but built as " ++ built.text := rfl
    refine ⟨" " ++ "is declared as " ++ declared.text ++ " but built as " ++ built.text, ?_⟩
    rw [text, quote, member]
    simp only [String.append_assoc]
  | undeclared name =>
    have text : (undeclared name).text = "member '" ++ name ++ ("' " ++ "is not declared") := rfl
    exact ⟨" " ++ "is not declared", by rw [text, quote, member, ← String.append_assoc]⟩

namespace Signature

/-- The entry is the first one in the list of which the property holds. -/
def FirstIn {α : Type} (P : α → Prop) (xs : List α) (x : α) : Prop :=
  ∃ before after, xs = before ++ x :: after ∧ P x ∧ ∀ y ∈ before, ¬ P y

/-- A declared member that was not built, or not like this. -/
def Unmet (built : Signature) (p : String × Member) : Prop :=
  ∀ n, (p.1, n) ∈ built → ¬ p.2.Same n

/-- A built member that was not declared. -/
def Unknown (declared : Signature) (p : String × Member) : Prop := p.1 ∉ declared.keys

variable {declared built : Signature}

/-- Signatures are the same if every declared member is met and every built one is known. -/
theorem sameMembers_iff (distinct : built.keys.Nodup) : Member.SameMembers declared built ↔
    (∀ p ∈ declared, ¬ Unmet built p) ∧ ∀ p ∈ built, ¬ Unknown declared p := by
  constructor
  · rintro (⟨names, same⟩)
    refine ⟨fun p hp unmet => ?_, fun p hp unknown => ?_⟩
    · obtain ⟨n, found⟩ := Table.exists_get?_of_mem_keys ((names p.1).mp (Table.mem_keys_of_mem hp))
      have hn := Table.mem_of_get? found
      exact unmet n hn (same p.1 p.2 n hp hn)
    · exact unknown ((names p.1).mpr (Table.mem_keys_of_mem hp))
  · rintro ⟨met, known⟩
    have partner : ∀ p ∈ declared, ∃ n, (p.1, n) ∈ built ∧ p.2.Same n := fun p hp => by
      simpa [Unmet] using met p hp
    refine .named (fun name => ⟨fun hname => ?_, fun hname => ?_⟩) fun name m n hm hn => ?_
    · obtain ⟨p, hp, rfl⟩ := List.mem_map.mp hname
      obtain ⟨n, hn, -⟩ := partner p hp
      exact Table.mem_keys_of_mem hn
    · obtain ⟨p, hp, rfl⟩ := List.mem_map.mp hname
      exact not_not.mp (known p hp)
    · obtain ⟨n', hn', same⟩ := partner (name, m) hm
      have found := (Table.get?_of_mem distinct hn).symm.trans (Table.get?_of_mem distinct hn')
      rwa [Option.some.inj found]

/-- What the search says of one declared member. -/
def verdict? (built : Signature) (p : String × Member) : Option SignatureDifference :=
  match Table.get? built p.1 with
  | none => some (.missing p.1)
  | some n => if p.2.agrees n then none else some (.changed p.1 p.2 n)

theorem shortfall?_eq : shortfall? declared built = declared.findSome? (verdict? built) := rfl

/-- Nothing is said of a member that is met, and a member that is not met is named, with what
was built in its place, if anything was. -/
theorem verdict?_eq (hb : built.Distinct) {p : String × Member} (hp : p.2.Distinct) :
    (verdict? built p = none ∧ ¬ Unmet built p) ∨
    Unmet built p ∧ ((p.1 ∉ built.keys ∧ verdict? built p = some (.missing p.1)) ∨
      ∃ n, (p.1, n) ∈ built ∧ verdict? built p = some (.changed p.1 p.2 n)) := by
  rw [verdict?]
  cases found : Table.get? built p.1 with
  | none =>
    have absent := Table.get?_eq_none_iff.mp found
    exact .inr ⟨fun n hn => absurd (Table.mem_keys_of_mem hn) absent, .inl ⟨absent, rfl⟩⟩
  | some n =>
    have hn := Table.mem_of_get? found
    have same := Member.agrees_iff_same hp (Member.allDistinct_iff.mp hb.2 _ hn)
    by_cases agrees : p.2.agrees n = true
    · exact .inl ⟨if_pos agrees, fun unmet => unmet n hn (same.mp agrees)⟩
    · refine .inr ⟨fun n' hn' same' => agrees (same.mpr ?_), .inr ⟨n, hn, if_neg agrees⟩⟩
      rwa [Option.some.inj (found.symm.trans (Table.get?_of_mem hb.1 hn'))]

theorem verdict?_eq_none_iff (hb : built.Distinct) {p : String × Member} (hp : p.2.Distinct) :
    verdict? built p = none ↔ ¬ Unmet built p := by
  rcases verdict?_eq hb hp with ⟨none, met⟩ | ⟨unmet, ⟨-, some⟩ | ⟨n, -, some⟩⟩
  · exact iff_of_true none met
  · exact iff_of_false (by simp [some]) (not_not.mpr unmet)
  · exact iff_of_false (by simp [some]) (not_not.mpr unmet)

/-- There is no shortfall if every declared member is met. -/
theorem shortfall?_eq_none_iff (ha : declared.Distinct) (hb : built.Distinct) :
    shortfall? declared built = none ↔ ∀ p ∈ declared, ¬ Unmet built p := by
  rw [shortfall?_eq, List.findSome?_eq_none_iff]
  exact forall₂_congr fun p hp => verdict?_eq_none_iff hb (Member.allDistinct_iff.mp ha.2 p hp)

/-- A shortfall is about the first declared member that is not met. -/
theorem shortfall?_eq_some (ha : declared.Distinct) (hb : built.Distinct) {d : SignatureDifference}
    (h : shortfall? declared built = some d) :
    ∃ m, FirstIn (Unmet built) declared (d.member, m) ∧
      ((d.member ∉ built.keys ∧ d = .missing d.member) ∨
        ∃ n, (d.member, n) ∈ built ∧ d = .changed d.member m n) := by
  rw [shortfall?_eq, List.findSome?_eq_some_iff] at h
  obtain ⟨before, p, after, split, here, earlier⟩ := h
  have inner : ∀ q ∈ declared, q.2.Distinct := Member.allDistinct_iff.mp ha.2
  have first (unmet : Unmet built p) : FirstIn (Unmet built) declared p := by
    refine ⟨before, after, split, unmet, fun q hq => ?_⟩
    exact (verdict?_eq_none_iff hb (inner q (by simp [split, hq]))).mp (earlier q hq)
  rcases verdict?_eq hb (inner p (by simp [split])) with ⟨none, -⟩ | ⟨unmet, found⟩
  · cases none.symm.trans here
  · rcases found with ⟨absent, missing⟩ | ⟨n, hn, changed⟩
    · obtain rfl := Option.some.inj (missing.symm.trans here)
      exact ⟨p.2, first unmet, .inl ⟨absent, rfl⟩⟩
    · obtain rfl := Option.some.inj (changed.symm.trans here)
      exact ⟨p.2, first unmet, .inr ⟨n, hn, rfl⟩⟩

theorem surplus?_eq_none_iff :
    surplus? declared built = none ↔ ∀ p ∈ built, ¬ Unknown declared p := by
  rw [surplus?, Option.map_eq_none_iff, List.find?_eq_none, Table.keys, List.forall_mem_map]
  refine forall₂_congr fun p _ => ?_
  rw [Unknown, not_not, ← Table.contains_iff]
  simp

/-- A surplus is the first built member that was not declared. -/
theorem surplus?_eq_some {d : SignatureDifference} (h : surplus? declared built = some d) :
    ∃ n, FirstIn (Unknown declared) built (d.member, n) ∧ d = .undeclared d.member := by
  obtain ⟨name, found, rfl⟩ := Option.map_eq_some_iff.mp h
  obtain ⟨new, before, after, split, earlier⟩ := List.find?_eq_some_iff_append.mp found
  obtain ⟨front, back, rfl, rfl, hback⟩ := List.map_eq_append_iff.mp split
  obtain ⟨p, rest, rfl, rfl, rfl⟩ := List.map_eq_cons_iff.mp hback
  have known (key : String) : (!Table.contains declared key) = true ↔ key ∉ declared.keys := by
    rw [← Table.contains_iff]
    simp
  refine ⟨p.2, ⟨front, rest, rfl, (known p.1).mp new, fun q hq unknown => ?_⟩, rfl⟩
  have seen := earlier q.1 (List.mem_map_of_mem hq)
  rw [(known q.1).mpr unknown] at seen
  cases seen

/-- The search for a difference finds nothing exactly if the signatures are the same, however
deep their interfaces go and in whatever order the members stand at each depth, and so it
finds nothing the other way round. Otherwise it names the first declared member, in the order
of the declaration, that is not built or not built like this. If there is none, it names the
first built member that was not declared. -/
theorem difference_is_exact (ha : declared.Distinct) (hb : built.Distinct) :
    (declared.difference? built = none ↔ Member.SameMembers declared built) ∧
    (declared.difference? built = none → built.difference? declared = none) ∧
    ∀ d, declared.difference? built = some d →
      (∃ rest, d.text = "member '" ++ d.member ++ "'" ++ rest) ∧
      ((∃ m, FirstIn (Unmet built) declared (d.member, m) ∧
        ((d.member ∉ built.keys ∧ d = .missing d.member) ∨
          ∃ n, (d.member, n) ∈ built ∧ d = .changed d.member m n)) ∨
      (∀ p ∈ declared, ¬ Unmet built p) ∧
        ∃ n, FirstIn (Unknown declared) built (d.member, n) ∧ d = .undeclared d.member) := by
  have exact_none {a b : Signature} (ha : a.Distinct) (hb : b.Distinct) :
      a.difference? b = none ↔ Member.SameMembers a b := by
    rw [difference?, Option.orElse_eq_orElse, Option.orElse_eq_or, Option.or_eq_none_iff,
      shortfall?_eq_none_iff ha hb, surplus?_eq_none_iff, sameMembers_iff hb.1]
  refine ⟨exact_none ha hb, fun none => ?_, fun d found => ⟨d.text_names_member, ?_⟩⟩
  · exact (exact_none hb ha).mpr ((exact_none ha hb).mp none).symm
  · rw [difference?] at found
    cases short : shortfall? declared built with
    | some d' =>
      rw [short] at found
      obtain rfl := Option.some.inj found
      exact .inl (shortfall?_eq_some ha hb short)
    | none =>
      rw [short] at found
      exact .inr ⟨(shortfall?_eq_none_iff ha hb).mp short, surplus?_eq_some found⟩

/-- A bus with an enable. -/
def busWith (data : Shape) : Signature :=
  [("bus", .interface .outward [("addr", .port .inward ⟨8, false⟩), ("data", .port .outward data)]),
    ("en", .port .inward .bit)]

/-- The same bus with its members in another order at both depths. -/
def turnedBus : Signature :=
  [("en", .port .inward .bit),
    ("bus", .interface .outward
      [("data", .port .outward ⟨16, true⟩), ("addr", .port .inward ⟨8, false⟩)])]

theorem busWith_distinct (data : Shape) : (busWith data).Distinct := by
  simp [busWith, Distinct, Member.AllDistinct, Member.Distinct, Table.keys]

theorem turnedBus_distinct : turnedBus.Distinct := by
  simp [turnedBus, Distinct, Member.AllDistinct, Member.Distinct, Table.keys]

/-- The order makes no difference, and a narrower bus is named by what is around it. -/
theorem turnedBus_compared :
    ((busWith ⟨16, true⟩).Distinct ∧ turnedBus.Distinct ∧
      Member.SameMembers (busWith ⟨16, true⟩) turnedBus ∧
      turnedBus.difference? (busWith ⟨16, true⟩) = none) ∧
    (busWith ⟨12, true⟩).Distinct ∧ ∃ d, (busWith ⟨12, true⟩).difference? turnedBus = some d ∧
      d.member = "bus" ∧ ∃ m, FirstIn (Unmet turnedBus) (busWith ⟨12, true⟩) ("bus", m) := by
  have same := difference_is_exact (busWith_distinct ⟨16, true⟩) turnedBus_distinct
  have none : (busWith ⟨16, true⟩).difference? turnedBus = none := rfl
  refine ⟨⟨busWith_distinct _, turnedBus_distinct, same.1.mp none, same.2.1 none⟩,
    busWith_distinct _, ?_⟩
  obtain ⟨d, found, bus⟩ : ∃ d, (busWith ⟨12, true⟩).difference? turnedBus = some d ∧
      d.member = "bus" := ⟨_, rfl, rfl⟩
  obtain ⟨-, first⟩ := (difference_is_exact (busWith_distinct _) turnedBus_distinct).2.2 d found
  refine ⟨d, found, bus, ?_⟩
  rw [bus] at first
  rcases first with ⟨m, here, -⟩ | ⟨-, n, -, undeclared⟩
  · exact ⟨m, here⟩
  · rw [undeclared] at found
    cases found

end Signature

end NetBridge
