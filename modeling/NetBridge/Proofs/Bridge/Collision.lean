import NetBridge.Proofs.Bridge.Operation
import NetBridge.Proofs.Bridge.PortMap

/-! # Port collisions

Two connections meet at one port exactly if they lead to one guest signal. The
bridge compares labels; labels stand for signals because names and directions are
functions of the signal and names are unique. -/
namespace NetBridge

section FirstRepeat

variable {α β : Type} [DecidableEq α] [DecidableEq β]

/-- The first item that is among the seen ones or that came before. -/
def firstRepeat? : List α → List α → Option α
  | _, [] => none
  | seen, a :: rest => if a ∈ seen then some a else firstRepeat? (a :: seen) rest

theorem firstRepeat?_map (f : α → β) (seen items : List α)
    (injective : ∀ a ∈ seen ++ items, ∀ b ∈ seen ++ items, f a = f b → a = b) :
    firstRepeat? (seen.map f) (items.map f) = (firstRepeat? seen items).map f := by
  induction items generalizing seen with
  | nil => rfl
  | cons a rest ih =>
    have hmem : f a ∈ seen.map f ↔ a ∈ seen := by
      constructor
      · intro h
        obtain ⟨b, hb, heq⟩ := List.mem_map.mp h
        obtain rfl := injective b (by simp [hb]) a (by simp) heq
        exact hb
      · exact List.mem_map_of_mem
    by_cases ha : a ∈ seen
    · simp [firstRepeat?, ha, hmem.mpr ha]
    · have hrest := ih (a :: seen) fun b hb c hc =>
        injective b (by simp at hb ⊢; tauto) c (by simp at hc ⊢; tauto)
      simpa [firstRepeat?, ha, mt hmem.mp ha] using hrest

theorem firstRepeat?_eq_none_iff (seen items : List α) (hseen : seen.Nodup) :
    firstRepeat? seen items = none ↔ (seen.reverse ++ items).Nodup := by
  induction items generalizing seen with
  | nil => simpa [firstRepeat?] using hseen
  | cons a rest ih =>
    by_cases ha : a ∈ seen
    · have hnot : ¬ (seen.reverse ++ a :: rest).Nodup := by
        intro h
        exact (List.nodup_append.mp h).2.2 a (List.mem_reverse.mpr ha) a List.mem_cons_self rfl
      simp [firstRepeat?, ha, hnot]
    · have := ih (a :: seen) (List.nodup_cons.mpr ⟨ha, hseen⟩)
      simpa [firstRepeat?, ha] using this

theorem firstRepeat?_eq_some {seen items : List α} {a : α} (hseen : seen.Nodup)
    (h : firstRepeat? seen items = some a) :
    ∃ before after, items = before ++ a :: after ∧ (seen.reverse ++ before).Nodup ∧
      a ∈ seen.reverse ++ before := by
  induction items generalizing seen with
  | nil => cases h
  | cons b rest ih =>
    by_cases hb : b ∈ seen
    · obtain rfl : b = a := by simpa [firstRepeat?, hb] using h
      exact ⟨[], rest, rfl, by simpa using hseen, by simpa using hb⟩
    · obtain ⟨before, after, hitems, nodup, hmem⟩ :=
        ih (List.nodup_cons.mpr ⟨hb, hseen⟩) (by simpa [firstRepeat?, hb] using h)
      exact ⟨b :: before, after, by simp [hitems], by simpa using nodup, by simpa using hmem⟩

omit [DecidableEq α] in
theorem nodup_iff_getElem?_notMem_take (l : List α) :
    l.Nodup ↔ ∀ (j : Nat) (a : α), l[j]? = some a → a ∉ l.take j := by
  rw [List.nodup_iff_getElem?_ne_getElem?]
  constructor
  · intro h j a ha hmem
    obtain ⟨i, hi, heq⟩ := List.mem_take_iff_getElem.mp hmem
    have hj : j < l.length := (List.getElem?_eq_some_iff.mp ha).1
    refine h i j (by omega) hj ?_
    rw [ha, List.getElem?_eq_getElem (by omega), heq]
  · intro h i j hij hj heq
    have ha : l[j]? = some l[j] := List.getElem?_eq_getElem hj
    refine h j l[j] ha (List.mem_take_iff_getElem.mpr ⟨i, by omega, ?_⟩)
    rw [ha, List.getElem?_eq_getElem (by omega)] at heq
    exact Option.some.inj heq

end FirstRepeat

namespace Bridge

open Guest (Netlist SignalId Target)

/-- The binding of a connection to a port. -/
def bindingTo (port : PortInfo) (c : Connection) : Binding :=
  ⟨port.label, port.direction, c.source, c.invert⟩

/-- The ports of the connections are all found; a label that comes a second time stops
the search. -/
theorem bindings_eq (map : PortMap) (portOf : Connection → PortInfo) (seen : List String)
    (cs : List Connection) (found : ∀ c ∈ cs, map.lookup c.target = .ok (portOf c)) :
    bindings map seen cs = match firstRepeat? seen (cs.map fun c => (portOf c).label) with
      | some label => .error (.portCollision label)
      | none => .ok (cs.map fun c => bindingTo (portOf c) c) := by
  induction cs generalizing seen with
  | nil => rfl
  | cons c rest ih =>
    have hc := found c List.mem_cons_self
    have hrest := ih ((portOf c).label :: seen) fun d hd => found d (List.mem_cons_of_mem c hd)
    by_cases hl : (portOf c).label ∈ seen
    · simp [bindings, hc, firstRepeat?, hl, bind, Except.bind, pure, Except.pure, throw, throwThe,
        MonadExceptOf.throw]
    · have step : bindings map seen (c :: rest) =
          (bindings map ((portOf c).label :: seen) rest).map (bindingTo (portOf c) c :: ·) := by
        simp only [bindings, hc, pure_bind, List.contains_iff_mem, if_neg hl]
        cases bindings map ((portOf c).label :: seen) rest <;> rfl
      rw [step, hrest, List.map_cons, firstRepeat?, if_neg hl]
      cases firstRepeat? ((portOf c).label :: seen) (rest.map fun c => (portOf c).label) <;> rfl

/-- The signal that a target leads to, if it leads to one. -/
def signalBehind (m : Netlist) (t : Target) : SignalId :=
  match m.resolve t with
  | .ok id => id
  | .error _ => ⟨0⟩

/-- What the bindings of an emitted bridge rest on: every connection leads to a port. -/
structure Ports (b : Bridge) where
  stages : b.guest.Stages (b.connections.map (·.target))
  resolved : ∀ c ∈ b.connections, b.guest.resolve c.target = .ok (signalBehind b.guest c.target)
  isPort : ∀ c ∈ b.connections, signalBehind b.guest c.target ∈ stages.ports.keys

def Ports.portOf {b : Bridge} (p : Ports b) (c : Connection) : PortInfo :=
  p.stages.portOf (signalBehind b.guest c.target)

theorem emit_ports {b emitted : Bridge} {text : String} (h : emit b = .ok text emitted) :
    ∃ p : Ports b, text = (p.stages.generated b.name).text ∧
      b.guest.generate b.name (b.connections.map (·.target)) = .ok (p.stages.generated b.name) ∧
      emitted.connections = b.connections ∧ emitted.name = b.name ∧
      ∀ c ∈ b.connections, emitted.portMap.lookup c.target = .ok (p.portOf c) := by
  obtain ⟨-, g, hg, rfl, rfl⟩ := emit_eq_ok.mp h
  obtain ⟨s, rfl⟩ := Netlist.generate_eq_ok.mp hg
  have resolve : ∀ c ∈ b.connections,
      b.guest.resolve c.target = .ok (signalBehind b.guest c.target) ∧
        signalBehind b.guest c.target ∈ s.ports.keys := by
    intro c hc
    obtain ⟨id, hid, hr⟩ := s.portsFor.resolved c.target (List.mem_map_of_mem hc)
    have hs : signalBehind b.guest c.target = id := by simp [signalBehind, hr]
    rw [hs]
    exact ⟨hr, hid⟩
  refine ⟨⟨s, fun c hc => (resolve c hc).1, fun c hc => (resolve c hc).2⟩, rfl, hg, rfl, rfl, ?_⟩
  intro c hc
  exact PortMap.lookup_ofGenerated s b.name (resolve c hc).1 (resolve c hc).2

/-- The connection at `j` leads to the signal of an earlier one. -/
def Repeats (m : Netlist) (cs : List Connection) (j : Nat) : Prop :=
  ∃ d, cs[j]? = some d ∧
    ∃ c ∈ cs.take j, ∃ id, m.resolve c.target = .ok id ∧ m.resolve d.target = .ok id

namespace Ports

variable {b : Bridge} (p : Ports b)

def signals (b : Bridge) : List SignalId := b.connections.map fun c => signalBehind b.guest c.target

include p in
theorem repeats_iff (j : Nat) : Repeats b.guest b.connections j ↔
    ∃ id, (signals b)[j]? = some id ∧ id ∈ (signals b).take j := by
  simp only [Repeats, signals, List.getElem?_map, ← List.map_take, List.mem_map,
    Option.map_eq_some_iff]
  constructor
  · rintro ⟨d, hd, c, hc, id, hcr, hdr⟩
    refine ⟨id, ⟨d, hd, ?_⟩, c, hc, ?_⟩
    · simp [signalBehind, hdr]
    · simp [signalBehind, hcr]
  · rintro ⟨id, ⟨d, hd, hds⟩, c, hc, hcs⟩
    refine ⟨d, hd, c, hc, id, ?_, ?_⟩
    · rw [← hcs]
      exact p.resolved c (List.mem_of_mem_take hc)
    · rw [← hds]
      exact p.resolved d (List.mem_of_getElem? hd)

theorem label_iff {c d : Connection} (hc : c ∈ b.connections) (hd : d ∈ b.connections) :
    (p.portOf c).label = (p.portOf d).label ↔
      b.guest.resolve c.target = b.guest.resolve d.target := by
  rw [portOf, portOf, p.stages.label_inj (p.isPort c hc) (p.isPort d hd), p.resolved c hc,
    p.resolved d hd, Except.ok.injEq]

/-- The labels repeat where the signals do. -/
theorem firstRepeat?_labels : firstRepeat? [] (b.connections.map fun c => (p.portOf c).label) =
    (firstRepeat? [] (signals b)).map fun id => (p.stages.portOf id).label := by
  have hmap := firstRepeat?_map (fun id => (p.stages.portOf id).label) [] (signals b) ?_
  · simpa [signals, portOf, Function.comp_def] using hmap
  · intro x hx y hy heq
    obtain ⟨c, hc, rfl⟩ := List.mem_map.mp hx
    obtain ⟨d, hd, rfl⟩ := List.mem_map.mp hy
    exact (p.stages.label_inj (p.isPort c hc) (p.isPort d hd)).mp heq

end Ports

theorem buildInstance_of_error {b : Bridge} {e : BridgeError} (hp : b.phase = .emitted)
    (h : bindings b.portMap [] b.connections = .error e) : buildInstance b = .error e b := by
  rw [buildInstance, bind_of_ok (ensurePhase_ok hp), bind_of_ok get_run, h]
  rfl

theorem buildInstance_of_ok {b : Bridge} {bs : List Binding} (hp : b.phase = .emitted)
    (h : bindings b.portMap [] b.connections = .ok bs) :
    buildInstance b = (do
      let inst ← bindAll ⟨b.name, []⟩ bs
      modify fun s : Bridge => { s with phase := .instantiated }
      return inst) b := by
  rw [buildInstance, bind_of_ok (ensurePhase_ok hp), bind_of_ok get_run, h]

theorem buildInstance_phase {b b' : Bridge} {inst : Host.Instance}
    (h : buildInstance b = .ok inst b') : b.phase = .emitted := by
  by_cases hp : b.phase = .emitted
  · exact hp
  · rw [buildInstance, bind_of_error (ensurePhase_error hp)] at h
    cases h

/-- An instance that is built comes from the bindings of all connections. -/
theorem buildInstance_binds {b b' : Bridge} {inst : Host.Instance}
    (h : buildInstance b = .ok inst b') : ∃ bs bound, bindings b.portMap [] b.connections = .ok bs ∧
      bindAll ⟨b.name, []⟩ bs b = .ok inst bound ∧ b' = { bound with phase := .instantiated } := by
  have hp := buildInstance_phase h
  cases hb : bindings b.portMap [] b.connections with
  | error e => cases (buildInstance_of_error hp hb).symm.trans h
  | ok bs =>
    rw [buildInstance_of_ok hp hb] at h
    obtain ⟨inst', bound, hbind, h⟩ := bind_eq_ok.mp h
    obtain ⟨rfl, rfl⟩ := EStateM.Result.ok.inj h
    exact ⟨bs, bound, rfl, hbind, rfl⟩

theorem hostSignal_run (b : Bridge) (id : Host.SignalId) :
    hostSignal id b = match b.host.signal? id with
      | some s => .ok s b
      | none => .error (.unallocated id.index) b := by
  rw [hostSignal, bind_of_ok get_run]
  cases b.host.signal? id <;> rfl

/-- Binding a port can only fail on a source that was never allocated. -/
theorem bindAll_error {inst : Host.Instance} {bs : List Binding} {b b' : Bridge} {e : BridgeError}
    (h : bindAll inst bs b = .error e b') : ∃ i, e = .unallocated i := by
  induction bs generalizing inst b with
  | nil => cases h
  | cons x rest ih =>
    cases hx : bound x b with
    | ok id b₁ =>
      rw [bindAll, bind_of_ok hx] at h
      exact ih h
    | error e₁ b₁ =>
      rw [bindAll, bind_of_error hx] at h
      obtain ⟨rfl, rfl⟩ : e₁ = e ∧ b₁ = b' := by simpa using h
      by_cases hi : x.invert = true
      · cases hs : b.host.signal? x.source with
        | none =>
          have hrun := hostSignal_run b x.source
          rw [hs] at hrun
          rw [bound, if_pos hi, bind_of_error hrun] at hx
          exact ⟨x.source.index, by simpa [eq_comm] using (EStateM.Result.error.inj hx).1⟩
        | some s =>
          have hrun := hostSignal_run b x.source
          rw [hs] at hrun
          rw [bound, if_pos hi, bind_of_ok hrun] at hx
          cases hx
      · rw [bound, if_neg hi] at hx
        cases hx

/-- The outcome of the search for ports on an emitted bridge. -/
theorem bindings_sealed {b emitted c : Bridge} {text : String} (emission : emit b = .ok text emitted)
    (later : Sealed emitted c) : ∃ p : Ports b,
      b.guest.generate b.name (b.connections.map (·.target)) = .ok (p.stages.generated b.name) ∧
      (∀ k ∈ b.connections, c.portMap.lookup k.target = .ok (p.portOf k)) ∧
      bindings c.portMap [] c.connections = match firstRepeat? [] (Ports.signals b) with
        | some id => .error (.portCollision (p.stages.portOf id).label)
        | none => .ok (b.connections.map fun k => bindingTo (p.portOf k) k) := by
  obtain ⟨p, -, hg, hconn, -, hlookup⟩ := emit_ports emission
  have found : ∀ k ∈ b.connections, c.portMap.lookup k.target = .ok (p.portOf k) := by
    rw [later.portMap]
    exact hlookup
  refine ⟨p, hg, found, ?_⟩
  rw [later.connections, hconn, bindings_eq c.portMap p.portOf [] b.connections found,
    p.firstRepeat?_labels]
  cases firstRepeat? [] (Ports.signals b) <;> rfl

/-- An emitted bridge reports a collision exactly if two connections lead to one signal.
It reports the label of the first connection that repeats a signal and changes nothing;
connections to different signals have different labels. -/
theorem collision_iff_same_signal {b emitted c : Bridge} {text : String}
    (emission : emit b = .ok text emitted) (later : Sealed emitted c) :
    ((∃ label d, buildInstance c = .error (.portCollision label) d) ↔
      ∃ j, Repeats b.guest b.connections j) ∧
    (∀ label d, buildInstance c = .error (.portCollision label) d → d = c ∧
      ∃ j k g id direction name, Repeats b.guest b.connections j ∧
        (∀ i, i < j → ¬ Repeats b.guest b.connections i) ∧ b.connections[j]? = some k ∧
        b.guest.generate b.name (b.connections.map (·.target)) = .ok g ∧
        b.guest.resolve k.target = .ok id ∧ Table.get? g.ports id = some direction ∧
        Table.get? g.names id = some name ∧ label = direction.label name) ∧
    (∀ k ∈ b.connections, ∀ l ∈ b.connections, ∃ p q, c.portMap.lookup k.target = .ok p ∧
      c.portMap.lookup l.target = .ok q ∧
      (p.label = q.label ↔ b.guest.resolve k.target = b.guest.resolve l.target)) := by
  obtain ⟨p, hg, found, outcome⟩ := bindings_sealed emission later
  have labels : ∀ k ∈ b.connections, ∀ l ∈ b.connections, ∃ p q,
      c.portMap.lookup k.target = .ok p ∧ c.portMap.lookup l.target = .ok q ∧
      (p.label = q.label ↔ b.guest.resolve k.target = b.guest.resolve l.target) :=
    fun k hk l hl => ⟨p.portOf k, p.portOf l, found k hk, found l hl, p.label_iff hk hl⟩
  cases hrep : firstRepeat? [] (Ports.signals b) with
  | none =>
    have nodup : (Ports.signals b).Nodup := by
      simpa using (firstRepeat?_eq_none_iff [] (Ports.signals b) List.nodup_nil).mp hrep
    have never : ∀ label d, buildInstance c ≠ .error (.portCollision label) d := by
      intro label d h
      rw [hrep] at outcome
      rw [buildInstance_of_ok later.phase outcome] at h
      cases hb : bindAll ⟨c.name, []⟩ (b.connections.map fun k => bindingTo (p.portOf k) k) c with
      | ok inst d' =>
        rw [bind_of_ok hb] at h
        cases h
      | error e d' =>
        rw [bind_of_error hb] at h
        obtain ⟨i, rfl⟩ := bindAll_error hb
        cases h
    refine ⟨⟨fun ⟨label, d, h⟩ => absurd h (never label d), ?_⟩,
      fun label d h => absurd h (never label d), labels⟩
    rintro ⟨j, hj⟩
    obtain ⟨id, hid, hmem⟩ := (p.repeats_iff j).mp hj
    exact absurd hmem ((nodup_iff_getElem?_notMem_take _).mp nodup j id hid)
  | some id =>
    rw [hrep] at outcome
    have result := buildInstance_of_error later.phase outcome
    obtain ⟨before, after, hsignals, nodup, hmem⟩ := firstRepeat?_eq_some List.nodup_nil hrep
    simp only [List.reverse_nil, List.nil_append] at nodup hmem
    have hat : (Ports.signals b)[before.length]? = some id := by simp [hsignals]
    have htake : (Ports.signals b).take before.length = before := by simp [hsignals]
    have repeats : Repeats b.guest b.connections before.length :=
      (p.repeats_iff _).mpr ⟨id, hat, by rw [htake]; exact hmem⟩
    have first : ∀ i, i < before.length → ¬ Repeats b.guest b.connections i := by
      intro i hi h
      obtain ⟨x, hx, hxmem⟩ := (p.repeats_iff i).mp h
      have hbefore : before[i]? = some x := by
        rw [hsignals, List.getElem?_append_left hi] at hx
        exact hx
      have htakei : (Ports.signals b).take i = before.take i := by
        rw [hsignals, List.take_append_of_le_length (by omega)]
      exact (nodup_iff_getElem?_notMem_take before).mp nodup i x hbefore (by rw [← htakei]; exact hxmem)
    refine ⟨⟨fun _ => ⟨_, repeats⟩, fun _ => ⟨_, _, result⟩⟩, ?_, labels⟩
    intro label d h
    obtain ⟨hlabel, rfl⟩ := EStateM.Result.error.inj (result.symm.trans h)
    obtain rfl := BridgeError.portCollision.inj hlabel
    obtain ⟨k, hk, hkid⟩ : ∃ k, b.connections[before.length]? = some k ∧
        signalBehind b.guest k.target = id := by
      simpa [Ports.signals] using hat
    have hkmem := List.mem_of_getElem? hk
    have hport := hkid ▸ p.isPort k hkmem
    exact ⟨rfl, before.length, k, _, id, _, _, repeats, first, hk, hg, hkid ▸ p.resolved k hkmem,
      p.stages.get?_ports hport, p.stages.get?_names_eq (p.stages.port_named hport), rfl⟩

/-- A clock that is connected as the clock of its domain and once more as a signal. -/
def clockTwice : Bridge where
  name := "core"
  host := { name := "top", signals := ⟨#[⟨"a", .bit⟩, ⟨"b", .bit⟩]⟩ }
  guest :=
    { signals := ⟨#[⟨"clk", .bit, 0⟩, ⟨"rst", .bit, 0⟩, ⟨"q", .bit, 0⟩]⟩
      domains := [("sync", ⟨"sync", ⟨0⟩, ⟨1⟩⟩)]
      statements := [⟨⟨2⟩, .unary .not (.signal ⟨2⟩), some "sync"⟩] }
  connections := [⟨⟨0⟩, .clock "sync", false⟩, ⟨⟨1⟩, .signal ⟨0⟩, true⟩]

theorem clockTwice_collides : ∃ text emitted, emit clockTwice = .ok text emitted ∧
    Sealed emitted emitted ∧ ∃ label d, buildInstance emitted = .error (.portCollision label) d := by
  have repeats : Repeats clockTwice.guest clockTwice.connections 1 :=
    ⟨_, rfl, _, List.mem_cons_self, ⟨0⟩, rfl, rfl⟩
  obtain ⟨text, emitted, h⟩ : ∃ text emitted, emit clockTwice = .ok text emitted := ⟨_, _, rfl⟩
  have later : Sealed emitted emitted := .of_emit h
  exact ⟨text, emitted, h, later, (collision_iff_same_signal h later).1.mpr ⟨1, repeats⟩⟩

end Bridge

end NetBridge
