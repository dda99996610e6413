import NetBridge.Proofs.Simulation.Naming

/-! # Whether names of signals are unique

The signals of a simulator that only requests have been made to are those of the leaves that were
reached, one request after the other. Their names repeat in three ways: a request that is refused
in the middle leaves leaves behind, and one that follows makes them again; two leaves have ports of
one name; or a port is called like a role. A search by name only finds every signal where none of
this has happened. -/
namespace NetBridge

theorem Arena.mem_entries {α : Type} {a : Arena α} {k : Key α} {x : α} :
    (k, x) ∈ a.entries ↔ a.get? k = some x := by
  rw [entries, List.mem_mapIdx]
  constructor
  · rintro ⟨i, hi, same⟩
    cases same
    simp [get?, toList]
  · intro found
    have place : a.toList[k.index]? = some x := by simpa [get?, toList] using found
    obtain ⟨hi, value⟩ := List.getElem?_eq_some_iff.mp place
    exact ⟨k.index, hi, by rw [value]⟩

namespace Simulation

namespace Simulator

variable {π : Type} {s : Simulator π}

/-- The names of the signals in the order in which they were added. -/
def names (s : Simulator π) : List String := s.signals.toList.map (·.name)

theorem getElem?_names (s : Simulator π) (id : SignalId) :
    s.names[id.index]? = (s.signals.get? id).map (·.name) := by
  simp [names, Arena.toList, Arena.get?]

theorem find?_eq_some {name : String} {id : SignalId} (h : s.find? name = some id) :
    s.names[id.index]? = some name := by
  obtain ⟨⟨id', x⟩, found, rfl⟩ := Option.map_eq_some_iff.mp h
  have called : x.name = name := by simpa using List.find?_some found
  rw [getElem?_names, Arena.mem_entries.mp (List.mem_of_find?_eq_some found)]
  exact congrArg some called

theorem exists_find? {id : SignalId} {x : Signal} (h : s.signals.get? id = some x) :
    ∃ id', s.find? x.name = some id' := by
  have found : (s.signals.entries.find? (·.2.name == x.name)).isSome := by
    rw [List.find?_isSome]
    exact ⟨(id, x), Arena.mem_entries.mpr h, by simp⟩
  obtain ⟨e, he⟩ := Option.isSome_iff_exists.mp found
  exact ⟨e.1, by rw [find?, he]; rfl⟩

/-- Every signal is found by its name exactly if no name is there twice. -/
theorem names_nodup_iff_find? : s.names.Nodup ↔
    ∀ id x, s.signals.get? id = some x → s.find? x.name = some id := by
  constructor
  · intro nodup id x h
    obtain ⟨id', found⟩ := exists_find? h
    have here : s.names[id.index]? = some x.name := by
      rw [getElem?_names, h]
      rfl
    have there := find?_eq_some found
    obtain ⟨inside, -⟩ := List.getElem?_eq_some_iff.mp there
    have same := (List.getElem?_inj inside nodup).mp (there.trans here.symm)
    rw [found]
    exact congrArg (some ∘ Key.mk) same
  · intro finds
    refine List.nodup_iff_getElem?_ne_getElem?.mpr fun i j before inside same => ?_
    have second := List.getElem?_eq_getElem inside
    obtain ⟨x, hx, nameX⟩ := Option.map_eq_some_iff.mp
      ((s.getElem?_names ⟨i⟩).symm.trans (same.trans second))
    obtain ⟨y, hy, nameY⟩ := Option.map_eq_some_iff.mp ((s.getElem?_names ⟨j⟩).symm.trans second)
    have found := finds _ x hx
    rw [nameX, ← nameY, finds _ y hy] at found
    exact absurd (congrArg Key.index (Option.some.inj found)) (Nat.ne_of_gt before)

end Simulator

/-- The roles that a leaf gets, unless it is refused. -/
def rolesOf? (direction : Option DirectionSpec) (rate : Option RateSpec) (pad : PadShape) :
    Option (List Role) := do
  let direction ← Spec.single? direction
  let rate ← Spec.single? rate
  let roles ← modeRoles? (direction.getD Bench.defaultDirection) (rate.getD 0)
  if pad.width = 0 ∨ 64 < pad.width then none else return roles

/-- The leaves that get signals, by field path, and whether no leaf was refused. -/
structure Reach where
  leaves : List (List String × List Role) := []
  complete : Bool := true

namespace Reach

def under (field : String) (r : Reach) : Reach :=
  { r with leaves := r.leaves.map fun l => (field :: l.1, l.2) }

/-- One after the other, as long as nothing is refused. -/
def andThen (r s : Reach) : Reach :=
  if r.complete then ⟨r.leaves ++ s.leaves, s.complete⟩ else r

/-- Nothing is reached by a check. -/
def check {α : Type} (spec : Option (Spec α)) (fields : List String) : Reach :=
  { complete := (Spec.strayField? spec fields).isNone }

mutual

/-- How far a request gets in a layout. -/
def ofLayout (direction : Option DirectionSpec) (rate : Option RateSpec) : Layout → Reach
  | .leaf pad =>
    match rolesOf? direction rate pad with
    | some roles => { leaves := [([], roles)] }
    | none => { complete := false }
  | .group fields =>
    (check direction (Table.keys fields)).andThen
      ((check rate (Table.keys fields)).andThen (ofFields direction rate fields))

def ofFields (direction : Option DirectionSpec) (rate : Option RateSpec) :
    List (String × Layout) → Reach
  | [] => {}
  | (field, sub) :: rest =>
    ((ofLayout (Spec.forField direction field) (Spec.forField rate field) sub).under field).andThen
      (ofFields direction rate rest)

end

/-- The leaves are the first ones of the paths, all of them if none was refused. -/
structure Covers (r : Reach) (paths : List (List String)) : Prop where
  front : r.leaves.map Prod.fst <+: paths
  all : r.complete = true → r.leaves.map Prod.fst = paths
  roles : ∀ l ∈ r.leaves, l.2.Nodup

theorem Covers.refused (paths : List (List String)) : Covers { complete := false } paths :=
  ⟨List.nil_prefix, Bool.noConfusion, by simp⟩

theorem Covers.check {α : Type} (spec : Option (Spec α)) (fields : List String) :
    (Reach.check spec fields).Covers [] :=
  ⟨List.nil_prefix, fun _ => rfl, by simp [Reach.check]⟩

theorem Covers.under {r : Reach} {paths : List (List String)} (h : r.Covers paths)
    (field : String) : (r.under field).Covers (paths.map (field :: ·)) := by
  have map_fst : (r.under field).leaves.map Prod.fst =
      (r.leaves.map Prod.fst).map (field :: ·) := by simp [Reach.under]
  refine ⟨?_, fun complete => ?_, fun l hl => ?_⟩
  · rw [map_fst]
    exact h.front.map _
  · rw [map_fst, h.all complete]
  · obtain ⟨l', hl', rfl⟩ := List.mem_map.mp hl
    exact h.roles l' hl'

theorem Covers.andThen {r s : Reach} {paths more : List (List String)} (hr : r.Covers paths)
    (hs : s.Covers more) : (r.andThen s).Covers (paths ++ more) := by
  rw [Reach.andThen]
  split
  · rename_i complete
    have before := hr.all complete
    refine ⟨?_, fun complete => ?_, List.forall_mem_append.mpr ⟨hr.roles, hs.roles⟩⟩
    · rw [List.map_append, before]
      exact (List.prefix_append_right_inj paths).mpr hs.front
    · rw [List.map_append, before, hs.all complete]
  · rename_i incomplete
    exact ⟨hr.front.trans (List.prefix_append paths more),
      fun complete => absurd complete incomplete, hr.roles⟩

theorem rolesOf?_nodup {direction : Option DirectionSpec} {rate : Option RateSpec} {pad : PadShape}
    {roles : List Role} (h : rolesOf? direction rate pad = some roles) : roles.Nodup := by
  obtain ⟨_, -, h⟩ := Option.bind_eq_some_iff.mp h
  obtain ⟨_, -, h⟩ := Option.bind_eq_some_iff.mp h
  obtain ⟨_, known, h⟩ := Option.bind_eq_some_iff.mp h
  split at h
  · cases h
  · cases h
    exact modeRoles?_nodup known

mutual

theorem ofLayout_covers (direction : Option DirectionSpec) (rate : Option RateSpec) :
    ∀ layout : Layout, (ofLayout direction rate layout).Covers layout.leafPaths
  | .leaf pad => by
    rw [ofLayout]
    split
    · rename_i roles known
      exact ⟨List.prefix_refl _, fun _ => rfl, List.forall_mem_singleton.mpr (rolesOf?_nodup known)⟩
    · exact .refused _
  | .group fields => by
    rw [ofLayout]
    exact (Covers.check ..).andThen
      ((Covers.check ..).andThen (ofFields_covers direction rate fields))

theorem ofFields_covers (direction : Option DirectionSpec) (rate : Option RateSpec) :
    ∀ fields : List (String × Layout),
      (ofFields direction rate fields).Covers (FieldTree.fieldLeafPaths fields)
  | [] => ⟨List.prefix_refl _, fun _ => rfl, by simp [ofFields]⟩
  | (field, sub) :: rest => by
    rw [ofFields, FieldTree.fieldLeafPaths_cons]
    exact ((ofLayout_covers _ _ sub).under field).andThen (ofFields_covers direction rate rest)

end

/-- The names of the signals of a leaf under a resource. -/
def namesUnder (port : String) (l : List String × List Role) : List String :=
  pathName port l.1 :: l.2.map fun r => s!"pad_{pathName port l.1}_{r.text}"

/-- The plan adds signals of these names, and refuses what the reach stops at. -/
structure Matches (port : String) (plan : Plan) (r : Reach) : Prop where
  names : plan.signals.map (·.name) = r.leaves.flatMap (namesUnder port)
  complete : plan.refusal.isNone = r.complete

theorem Matches.refuse (port : String) (e : Error) :
    Matches port (.refuse e) { complete := false } := ⟨rfl, rfl⟩

theorem Matches.under {port field : String} {plan : Plan} {r : Reach}
    (h : Matches s!"{port}_{field}" plan r) : Matches port plan (r.under field) := by
  refine ⟨h.names.trans ?_, h.complete⟩
  rw [Reach.under, List.flatMap_map]
  rfl

theorem Matches.andThen {port : String} {p q : Plan} {r s : Reach} (hp : Matches port p r)
    (hq : Matches port q s) : Matches port (p.andThen q) (r.andThen s) := by
  have stops := hp.complete
  rw [Plan.andThen, Reach.andThen, ← stops]
  cases p.refusal with
  | none =>
    refine ⟨?_, hq.complete⟩
    simp [hp.names, hq.names]
  | some e => exact hp

theorem pin_matches (port : String) (direction : Option DirectionSpec) (rate : Option RateSpec)
    (pad : PadShape) : Matches port (Plan.layout port s!"pad_{port}" direction rate (.leaf pad))
      (ofLayout direction rate (.leaf pad)) := by
  rw [Plan.layout, ofLayout, rolesOf?]
  cases Spec.single? direction with
  | none => exact .refuse port _
  | some d =>
    cases Spec.single? rate with
    | none => exact .refuse port _
    | some r =>
      dsimp only [Option.bind_eq_bind, Option.bind_some]
      rw [Plan.pin, modeRoles]
      cases modeRoles? (d.getD Bench.defaultDirection) (r.getD 0) with
      | none => exact .refuse port _
      | some roles =>
        dsimp only [Option.bind_some]
        split
        · exact .refuse port _
        · refine ⟨?_, rfl⟩
          dsimp only [Option.pure_def]
          rw [List.flatMap_singleton, List.map_cons, List.map_map]
          rfl

theorem check_matches {α : Type} (port group : String) (fields : List String)
    (spec : Option (Spec α)) : Matches port (.checkFields group fields spec) (check spec fields) :=
  ⟨rfl, Option.isNone_map⟩

/-- The pad of a field is called like the field of the pad. -/
theorem padName_field {port field pad name : String} (pads : pad = s!"pad_{port}")
    (names : name = s!"{port}_{field}") : s!"{pad}_{field}" = s!"pad_{name}" := by
  subst pads names
  change "pad_" ++ port ++ "_" ++ field = "pad_" ++ (port ++ "_" ++ field)
  simp [String.append_assoc]

mutual

/-- The signals that a plan adds are those of the leaves that are reached. -/
theorem layout_matches (port : String) (direction : Option DirectionSpec) (rate : Option RateSpec) :
    ∀ layout : Layout, Matches port (Plan.layout port s!"pad_{port}" direction rate layout)
      (ofLayout direction rate layout)
  | .leaf pad => pin_matches port direction rate pad
  | .group fields => by
    rw [Plan.layout, ofLayout]
    exact (check_matches ..).andThen
      ((check_matches ..).andThen (layouts_matches port direction rate fields))

theorem layouts_matches (port : String) (direction : Option DirectionSpec)
    (rate : Option RateSpec) : ∀ fields : List (String × Layout),
      Matches port (Plan.layouts port s!"pad_{port}" direction rate fields)
        (ofFields direction rate fields)
  | [] => ⟨rfl, rfl⟩
  | (field, sub) :: rest => by
    have first := layout_matches s!"{port}_{field}" (Spec.forField direction field)
      (Spec.forField rate field) sub
    rw [Plan.layouts, ofFields, padName_field rfl rfl]
    exact first.under.andThen (layouts_matches port direction rate rest)

end

end Reach

structure Request where
  name : String
  index : Option Nat
  direction : Option DirectionSpec := none
  rate : Option RateSpec := none

def Request.action (r : Request) : Bench.Action := .request r.name r.index r.direction r.rate

namespace Bench

variable {ρ : Type} {b : Bench ρ}

/-- The leaves that get signals for a request, granted or not. -/
def serves (b : Bench ρ) (r : Request) : List Leaf :=
  match b.board.resource? r.name r.index with
  | none => []
  | some resource =>
    if b.requested.contains (r.name, r.index) then []
    else match resource.layout with
      | .error _ => []
      | .ok layout =>
        (Reach.ofLayout r.direction r.rate layout).leaves.map fun l =>
          ⟨⟨(r.name, r.index), l.1⟩, l.2⟩

theorem names_planOf (b : Bench ρ) (r : Request) :
    (b.planOf r.name r.index r.direction r.rate).signals.map (·.name) =
      (b.serves r).flatMap Leaf.names := by
  rw [planOf, serves]
  cases found : b.board.resource? r.name r.index with
  | none => rfl
  | some resource =>
    dsimp only
    split
    · rfl
    · cases resource.layout with
      | error e => rfl
      | ok layout =>
        dsimp only
        rw [(Reach.layout_matches resource.logical r.direction r.rate layout).names,
          Board.logical_of_resource? found, List.flatMap_map]
        rfl

/-- Nothing is served, or the leaves of a layout that are reached. -/
theorem serves_cases (b : Bench ρ) (r : Request) : b.serves r = [] ∨
    ∃ resource layout, b.board.resource? r.name r.index = some resource ∧
      resource.layout = .ok layout ∧
      b.serves r = (Reach.ofLayout r.direction r.rate layout).leaves.map fun l =>
        ⟨⟨(r.name, r.index), l.1⟩, l.2⟩ := by
  rw [serves]
  cases b.board.resource? r.name r.index with
  | none => exact .inl rfl
  | some resource =>
    dsimp only
    split
    · exact .inl rfl
    · cases laidOut : resource.layout with
      | error e => exact .inl rfl
      | ok layout => exact .inr ⟨resource, layout, rfl, laidOut, rfl⟩

/-- The leaves are the first ones of their resource. -/
theorem serves_front (b : Bench ρ) (r : Request) : (b.serves r).map (·.place) <+:
    (b.board.leafPaths (r.name, r.index)).map (Place.mk (r.name, r.index)) := by
  rcases b.serves_cases r with nothing | ⟨resource, layout, known, laidOut, served⟩
  · rw [nothing]
    exact List.nil_prefix
  · have front := (Reach.ofLayout_covers r.direction r.rate layout).front
    have places := front.map (Place.mk (r.name, r.index))
    rw [List.map_map] at places
    rw [served, Board.leafPaths, known, List.map_map]
    dsimp only
    rw [laidOut]
    exact places

theorem serves_roles (b : Bench ρ) (r : Request) : ∀ l ∈ b.serves r, l.roles.Nodup := by
  rcases b.serves_cases r with nothing | ⟨resource, layout, -, -, served⟩
  · simp [nothing]
  · rw [served]
    exact List.forall_mem_map.mpr (Reach.ofLayout_covers r.direction r.rate layout).roles

variable [Coroutine ρ]

/-- A request adds the signals of the leaves that it serves, and keeps the board. -/
theorem apply_request (b : Bench ρ) (r : Request) :
    (r.action.apply b).board = b.board ∧
      (r.action.apply b).simulator.names =
        b.simulator.names ++ (b.serves r).flatMap Leaf.names := by
  have guided := request_guided (b := b) (k := 0) r.name r.index r.direction r.rate rfl rfl rfl
  have added : (b.simulator.extend (b.planOf r.name r.index r.direction r.rate).signals).names =
      b.simulator.names ++ (b.serves r).flatMap Leaf.names := by
    rw [← names_planOf]
    simp [Simulator.names, Simulator.extend, Arena.append, Arena.toList]
  rw [Request.action, Action.apply]
  dsimp only at guided
  split at guided
  · rw [stateAfter_error guided.1]
    exact ⟨rfl, added⟩
  · obtain ⟨pins, granted, -⟩ := guided
    rw [stateAfter_ok granted]
    exact ⟨rfl, added⟩

/-- The leaves that are served in a run, request by request. -/
def services : Bench ρ → List Request → List (List Leaf)
  | _, [] => []
  | b, r :: rest => b.serves r :: services (r.action.apply b) rest

theorem names_run (requests : List Request) (b : Bench ρ) :
    (run (requests.map Request.action) b).simulator.names =
      b.simulator.names ++ (b.services requests).flatten.flatMap Leaf.names := by
  induction requests generalizing b with
  | nil => simp [run, services]
  | cons r rest ih =>
    have later := ih (r.action.apply b)
    rw [(b.apply_request r).2] at later
    rw [List.map_cons, run, List.foldl_cons, ← run, later, services, List.flatten_cons,
      List.flatMap_append, List.append_assoc]

theorem mem_services {requests : List Request} {b : Bench ρ} {x : List Leaf}
    (h : x ∈ b.services requests) : ∃ (b' : Bench ρ) (r : Request),
      b'.board = b.board ∧ x = b'.serves r := by
  induction requests generalizing b with
  | nil => cases h
  | cons r rest ih =>
    rcases List.mem_cons.mp h with rfl | h
    · exact ⟨b, r, rfl, rfl⟩
    · obtain ⟨b', r', board, served⟩ := ih h
      exact ⟨b', r', board.trans (b.apply_request r).1, served⟩

end Bench

/-- Two services make the same leaf exactly if they are of the same resource, since each starts
with its first leaf. -/
theorem disjoint_places_iff {paths : String × Option Nat → List (List String)}
    {k l : String × Option Nat} {x y : List Leaf}
    (hx : x.map (·.place) <+: (paths k).map (Place.mk k))
    (hy : y.map (·.place) <+: (paths l).map (Place.mk l)) :
    (x.map (·.place)).Disjoint (y.map (·.place)) ↔
      ∀ a ∈ x, ∀ b ∈ y, a.place.key ≠ b.place.key := by
  have key_eq {key : String × Option Nat} {z : List Leaf} {a : Leaf}
      (hz : z.map (·.place) <+: (paths key).map (Place.mk key)) (ha : a ∈ z) :
      a.place.key = key := by
    obtain ⟨path, -, place⟩ := List.mem_map.mp (hz.subset (List.mem_map_of_mem ha))
    rw [← place]
  constructor
  · intro disjoint a ha b hb same
    obtain rfl : k = l := (key_eq hx ha).symm.trans (same.trans (key_eq hy hb))
    obtain ⟨first, _, rfl⟩ := List.exists_cons_of_ne_nil (List.ne_nil_of_mem ha)
    obtain ⟨first', _, rfl⟩ := List.exists_cons_of_ne_nil (List.ne_nil_of_mem hb)
    obtain ⟨rest, hrest⟩ := hx
    obtain ⟨rest', hrest'⟩ := hy
    have heads : first.place = first'.place := (List.cons.inj (hrest.trans hrest'.symm)).1
    refine disjoint List.mem_cons_self ?_
    dsimp only
    rw [heads]
    exact List.mem_cons_self
  · rintro keys p hp hq
    obtain ⟨a, ha, rfl⟩ := List.mem_map.mp hp
    obtain ⟨b, hb, same⟩ := List.mem_map.mp hq
    exact keys a ha b hb (congrArg Place.key same.symm)

/-- No leaf is made twice exactly if no resource is served twice. -/
theorem places_nodup_iff {paths : String × Option Nat → List (List String)}
    (distinct : ∀ key, (paths key).Nodup) {services : List (List Leaf)}
    (served : ∀ x ∈ services, ∃ key, x.map (·.place) <+: (paths key).map (Place.mk key)) :
    (services.flatten.map (·.place)).Nodup ↔
      services.Pairwise fun x y => ∀ a ∈ x, ∀ b ∈ y, a.place.key ≠ b.place.key := by
  rw [List.map_flatten, List.nodup_flatten, List.pairwise_map]
  constructor
  · rintro ⟨-, apart⟩
    refine apart.imp_of_mem fun {x y} hx hy disjoint => ?_
    obtain ⟨k, hk⟩ := served x hx
    obtain ⟨l, hl⟩ := served y hy
    exact (disjoint_places_iff hk hl).mp disjoint
  · intro apart
    refine ⟨List.forall_mem_map.mpr fun x hx => ?_, apart.imp_of_mem fun {x y} hx hy keys => ?_⟩
    · obtain ⟨k, hk⟩ := served x hx
      exact ((distinct k).map fun _ _ h => (Place.mk.inj h).2).sublist hk.sublist
    · obtain ⟨k, hk⟩ := served x hx
      obtain ⟨l, hl⟩ := served y hy
      exact (disjoint_places_iff hk hl).mpr keys

/-- For every board that has been read and whatever is requested of it, granted or refused: the
signals have the names of the leaves that were served, in order, and a search by name finds every
signal exactly if no name is there twice. Names are unique exactly if no resource is served twice,
which happens where a request that was refused in the middle is made again, no two leaves have
ports of one name, and no port is called like a role. On a plain board only the first can go
wrong. -/
theorem signal_names_unique_iff {ρ : Type} [Coroutine ρ] {text : String} {board : Board}
    (loaded : Board.ofText text = .ok board) (requests : List Request) :
    let bench : Bench ρ := { board }
    let simulator := (Bench.run (requests.map Request.action) bench).simulator
    let services := bench.services requests
    let served := services.flatten
    let once := services.Pairwise fun x y => ∀ a ∈ x, ∀ b ∈ y, a.place.key ≠ b.place.key
    simulator.names = served.flatMap Leaf.names ∧
    (simulator.names.Nodup ↔ ∀ id x, simulator.signals.get? id = some x →
      simulator.find? x.name = some id) ∧
    (simulator.names.Nodup ↔ once ∧
      (∀ a ∈ served, ∀ b ∈ served, a.place ≠ b.place → a.place.port ≠ b.place.port) ∧
      ∀ a ∈ served, ∀ b ∈ served, ∀ r ∈ b.roles, a.place.port ≠ b.place.roleName r) ∧
    (Plain board → (simulator.names.Nodup ↔ once)) := by
  intro bench simulator services served once
  have names : simulator.names = served.flatMap Leaf.names := bench.names_run requests
  have front : ∀ x ∈ services, ∃ key,
      x.map (·.place) <+: (board.leafPaths key).map (Place.mk key) := fun x hx => by
    obtain ⟨b, r, same, rfl⟩ := Bench.mem_services hx
    exact ⟨_, same ▸ b.serves_front r⟩
  have roles : ∀ l ∈ served, l.roles.Nodup := fun l hl => by
    obtain ⟨x, hx, hl⟩ := List.mem_flatten.mp hl
    obtain ⟨b, r, -, rfl⟩ := Bench.mem_services hx
    exact b.serves_roles r l hl
  have placed : ∀ l ∈ served, l.place.On board := fun l hl => by
    obtain ⟨x, hx, hl⟩ := List.mem_flatten.mp hl
    obtain ⟨key, prefixed⟩ := front x hx
    obtain ⟨path, known, place⟩ := List.mem_map.mp (prefixed.subset (List.mem_map_of_mem hl))
    rw [Place.On, ← place]
    exact known
  have places : (served.map (·.place)).Nodup ↔ once :=
    places_nodup_iff (Board.leafPaths_nodup loaded) front
  have unique : simulator.names.Nodup ↔ once ∧
      (∀ a ∈ served, ∀ b ∈ served, a.place ≠ b.place → a.place.port ≠ b.place.port) ∧
      ∀ a ∈ served, ∀ b ∈ served, ∀ r ∈ b.roles, a.place.port ≠ b.place.roleName r := by
    rw [names, names_nodup_iff roles, ports_nodup_iff, places, and_assoc]
  refine ⟨names, Simulator.names_nodup_iff_find?, unique, fun plain => ?_⟩
  rw [unique]
  refine ⟨fun h => h.1, fun h => ⟨h, fun a ha b hb different same => different ?_, ?_⟩⟩
  · exact (placed a ha).port_inj (placed b hb) plain same
  · exact fun a ha b _ r _ => (placed a ha).port_ne_roleName plain b.place r

/-- The first of two lights and one that is called like it. -/
def ledText : String :=
  "[bridge]\noutput_dir = \"build\"\n\n[[resource]]\nname = \"led\"\nindex = 0\nwidth = 1\n\n" ++
    "[[resource]]\nname = \"led_0\"\nwidth = 1\n"

def ledRequests : List Request :=
  [{ name := "led", index := some 0, direction := some (.leaf .idle) },
    { name := "led_0", index := none, direction := some (.leaf .idle) }]

/-- Both are granted, and a search for the second one finds the first. -/
theorem second_led_is_not_found : ∃ board, Board.ofText ledText = .ok board ∧
    let simulator := (Bench.run (ledRequests.map Request.action)
      ({ board } : Bench PinProcess)).simulator
    simulator.signals.get? ⟨1⟩ = some ⟨"led_0", 1, 0⟩ ∧ simulator.find? "led_0" = some ⟨0⟩ ∧
      ¬ simulator.names.Nodup := by
  have runs : (match Board.ofText ledText with
      | .ok board =>
        let simulator := (Bench.run (ledRequests.map Request.action)
          ({ board } : Bench PinProcess)).simulator
        decide (simulator.signals.get? ⟨1⟩ = some ⟨"led_0", 1, 0⟩ ∧
          simulator.find? "led_0" = some ⟨0⟩)
      | .error _ => false) = true := by decide +kernel
  cases loaded : Board.ofText ledText with
  | error e =>
    rw [loaded] at runs
    cases runs
  | ok board =>
    rw [loaded] at runs
    obtain ⟨second, found⟩ := of_decide_eq_true runs
    obtain ⟨-, finds, -⟩ := signal_names_unique_iff (ρ := PinProcess) loaded ledRequests
    refine ⟨board, rfl, second, found, fun nodup => ?_⟩
    have itself := finds.mp nodup _ _ second
    cases found.symm.trans itself

end Simulation

end NetBridge
