import NetBridge.Bridge.Build
import NetBridge.Proofs.Bridge.Collision

/-! # Finalization

Finalization emits the netlist if need be, builds the instance, and only then writes.
Until the instance is built nothing has happened to the host, so a failure up to there
leaves a bridge that can be finalized later. Once it is built the connections are
spent: if the storage then refuses, the bridge stays instantiated for good. -/
namespace NetBridge

namespace Bridge

/-- The second host is the first one with an inverter for every inverted connection: a
signal like the source, and one assignment between the two. -/
inductive Inverters : Host.Netlist → List Connection → Host.Netlist → Prop
  | nil {host : Host.Netlist} : Inverters host [] host
  | direct {host after : Host.Netlist} {c : Connection} {rest : List Connection} :
    c.invert = false → Inverters host rest after → Inverters host (c :: rest) after
  | inverted {host after : Host.Netlist} {c : Connection} {rest : List Connection}
    {s : Host.Signal} {a : Host.Assign} : c.invert = true → host.signal? c.source = some s →
    a = ⟨host.signals.nextKey, .not (.signal c.source)⟩ ∨
      a = ⟨c.source, .not (.signal host.signals.nextKey)⟩ →
    Inverters ((host.addSignal s!"{s.name}_inv" s.shape).2.assign a.target a.value) rest after →
    Inverters host (c :: rest) after

theorem Inverters.primitives {host after : Host.Netlist} {cs : List Connection}
    (h : Inverters host cs after) : after.primitives = host.primitives := by
  induction h with
  | nil => rfl
  | direct _ _ ih => exact ih
  | inverted _ _ _ _ ih => exact ih

/-- The assignment that comes with the new signal of an inverted connection. -/
def Binding.inverter (x : Binding) (inv : Host.SignalId) : Host.Assign :=
  match x.direction with
  | .input => ⟨inv, .not (.signal x.source)⟩
  | .output => ⟨x.source, .not (.signal inv)⟩

theorem Binding.inverter_eq (x : Binding) (inv : Host.SignalId) :
    x.inverter inv = ⟨inv, .not (.signal x.source)⟩ ∨
      x.inverter inv = ⟨x.source, .not (.signal inv)⟩ := by
  rw [inverter]
  cases x.direction with
  | input => exact .inl rfl
  | output => exact .inr rfl

theorem bound_inverted {x : Binding} {b : Bridge} {s : Host.Signal} (hi : x.invert = true)
    (hs : b.host.signal? x.source = some s) :
    let a := x.inverter b.host.signals.nextKey
    bound x b = .ok b.host.signals.nextKey { b with
      host := (b.host.addSignal s!"{s.name}_inv" s.shape).2.assign a.target a.value } := by
  have hrun := hostSignal_run b x.source
  rw [hs] at hrun
  rw [bound, if_pos hi, bind_of_ok hrun, onHost_run, Binding.inverter]
  cases x.direction <;> rfl

theorem bound_direct {x : Binding} (hi : x.invert = false) (b : Bridge) :
    bound x b = .ok x.source b := by
  rw [bound, if_neg (by simp [hi])]
  rfl

/-- An inverted connection is only bound if its source is there. -/
theorem bound_source {x : Binding} {b b' : Bridge} {id : Host.SignalId} (hi : x.invert = true)
    (h : bound x b = .ok id b') : ∃ s, b.host.signal? x.source = some s := by
  cases hs : b.host.signal? x.source with
  | some s => exact ⟨s, rfl⟩
  | none =>
    have hrun := hostSignal_run b x.source
    rw [hs] at hrun
    rw [bound, if_pos hi, bind_of_error hrun] at h
    cases h

/-- Binding leaves everything but the host alone, and the host gets its inverters. -/
theorem bindAll_inverters {inst inst' : Host.Instance} {bs : List Binding} {cs : List Connection}
    {b b' : Bridge} (ends : bs.map (fun x => (x.source, x.invert)) =
      cs.map fun c => (c.source, c.invert))
    (h : bindAll inst bs b = .ok inst' b') :
    ∃ host, Inverters b.host cs host ∧ b' = { b with host } := by
  induction bs generalizing inst cs b with
  | nil =>
    obtain rfl : cs = [] := by simpa using ends
    obtain ⟨-, rfl⟩ := EStateM.Result.ok.inj h
    exact ⟨b.host, .nil, rfl⟩
  | cons x rest ih =>
    cases cs with
    | nil => cases ends
    | cons c cs =>
      obtain ⟨⟨hsource, hinvert⟩, hrest⟩ :
          (x.source = c.source ∧ x.invert = c.invert) ∧ _ := by simpa using ends
      obtain ⟨id, b₁, hx, h⟩ := bind_eq_ok.mp h
      cases hi : c.invert with
      | false =>
        rw [bound_direct (hinvert.trans hi)] at hx
        obtain ⟨-, rfl⟩ := EStateM.Result.ok.inj hx
        obtain ⟨host, inverters, rfl⟩ := ih hrest h
        exact ⟨host, .direct hi inverters, rfl⟩
      | true =>
        obtain ⟨s, hs⟩ := bound_source (hinvert.trans hi) hx
        rw [bound_inverted (hinvert.trans hi) hs] at hx
        obtain ⟨-, rfl⟩ := EStateM.Result.ok.inj hx
        obtain ⟨host, inverters, rfl⟩ := ih hrest h
        have ha := x.inverter_eq b.host.signals.nextKey
        rw [hsource] at hs ha
        exact ⟨host, .inverted hi hs ha inverters, rfl⟩

/-- The first connection finds its port, which no connection before it has taken. -/
theorem bindings_cons {map : PortMap} {seen : List String} {c : Connection}
    {rest : List Connection} {bs : List Binding} (h : bindings map seen (c :: rest) = .ok bs) :
    ∃ port bs', map.lookup c.target = .ok port ∧ port.label ∉ seen ∧
      bindings map (port.label :: seen) rest = .ok bs' ∧ bs = bindingTo port c :: bs' := by
  rw [bindings] at h
  cases hl : map.lookup c.target with
  | error e => simp [hl, bind, Except.bind, throw, throwThe, MonadExceptOf.throw] at h
  | ok port =>
    simp only [hl, pure_bind] at h
    split at h
    · cases h
    · rename_i new
      cases hr : bindings map (port.label :: seen) rest with
      | error e => simp [hr, bind, Except.bind] at h
      | ok bs' =>
        obtain rfl : _ = bs := by
          simpa [hr, bind, Except.bind, pure, Except.pure] using h
        exact ⟨port, bs', rfl, by simpa using new, hr, rfl⟩

/-- The bindings of some connections keep their order, sources and inversions. -/
theorem bindings_ends {map : PortMap} {seen : List String} {cs : List Connection}
    {bs : List Binding} (h : bindings map seen cs = .ok bs) :
    bs.map (fun x => (x.source, x.invert)) = cs.map fun c => (c.source, c.invert) := by
  induction cs generalizing seen bs with
  | nil =>
    obtain rfl := Except.ok.inj h
    rfl
  | cons c rest ih =>
    obtain ⟨port, bs', -, -, hrest, rfl⟩ := bindings_cons h
    exact congrArg ((c.source, c.invert) :: ·) (ih hrest)

theorem bindings_error {map : PortMap} {seen : List String} {cs : List Connection}
    {e : BridgeError} (h : bindings map seen cs = .error e) :
    (∃ cause, e = .internal cause) ∨ ∃ label, e = .portCollision label := by
  induction cs generalizing seen with
  | nil => cases h
  | cons c rest ih =>
    rw [bindings] at h
    cases hl : map.lookup c.target with
    | error cause =>
      simp only [hl, bind, Except.bind, throw, throwThe, MonadExceptOf.throw] at h
      exact .inl ⟨cause, (Except.error.inj h).symm⟩
    | ok port =>
      simp only [hl, pure_bind] at h
      split at h
      · exact .inr ⟨port.label, (Except.error.inj h).symm⟩
      · cases hr : bindings map (port.label :: seen) rest with
        | error e' =>
          obtain rfl : e' = e := by simpa [hr, bind, Except.bind] using h
          exact ih hr
        | ok bs => simp [hr, bind, Except.bind, pure, Except.pure] at h

/-- A failed emission changes nothing. -/
theorem emit_error {b b' : Bridge} {e : BridgeError} (hp : b.phase = .collecting)
    (h : emit b = .error e b') : b' = b ∧ ∃ cause, e = .guest cause := by
  rw [emit, bind_of_ok (ensurePhase_ok hp), bind_of_ok get_run] at h
  cases hg : b.guest.generate b.name (b.connections.map (·.target)) with
  | error cause =>
    rw [hg, bind_of_error (ofGuest_error cause)] at h
    obtain ⟨rfl, rfl⟩ := EStateM.Result.error.inj h
    exact ⟨rfl, cause, rfl⟩
  | ok g =>
    rw [hg, bind_of_ok (ofGuest_ok g), bind_of_ok (modify_run _)] at h
    cases h

/-- A failure to build an instance is found before anything changes, unless a source was
never allocated. -/
theorem buildInstance_error {b b' : Bridge} {e : BridgeError} (hp : b.phase = .emitted)
    (h : buildInstance b = .error e b') : (b' = b ∧ e ≠ .storage) ∨ ∃ i, e = .unallocated i := by
  cases hb : bindings b.portMap [] b.connections with
  | error e' =>
    obtain ⟨rfl, rfl⟩ := EStateM.Result.error.inj ((buildInstance_of_error hp hb).symm.trans h)
    exact .inl ⟨rfl, by rintro rfl; simpa using bindings_error hb⟩
  | ok bs =>
    rw [buildInstance_of_ok hp hb] at h
    rcases bind_eq_error.mp h with h | ⟨inst, b₁, -, h⟩
    · exact .inr (bindAll_error h)
    · cases h

/-- A built instance spends the connections and puts the inverters into the host. -/
theorem buildInstance_ok {b b' : Bridge} {inst : Host.Instance}
    (h : buildInstance b = .ok inst b') : ∃ host, Inverters b.host b.connections host ∧
      b' = { b with host, phase := .instantiated } := by
  obtain ⟨bs, bound, hb, hbind, rfl⟩ := buildInstance_binds h
  obtain ⟨host, inverters, rfl⟩ := bindAll_inverters (bindings_ends hb) hbind
  exact ⟨host, inverters, rfl⟩

end Bridge

namespace Build

open Bridge

section Stages

variable {σ : Type} {s : Build σ}

theorem onBridge_ok {α : Type} {x : BridgeM α} {a : α} {b : Bridge} (h : x s.bridge = .ok a b) :
    onBridge x s = .ok a { s with bridge := b } := by
  rw [onBridge, h]

theorem onBridge_error {α : Type} {x : BridgeM α} {e : BridgeError} {b : Bridge}
    (h : x s.bridge = .error e b) : onBridge x s = .error e { s with bridge := b } := by
  rw [onBridge, h]

theorem store_ok {call : σ → Bool × σ} (h : (call s.storage).1 = true) :
    store call s = .ok () { s with storage := (call s.storage).2 } := by
  rw [store, bind_of_ok get_run]
  simp only [h]
  rfl

theorem store_error {call : σ → Bool × σ} (h : (call s.storage).1 = false) :
    store call s = .error .storage { s with storage := (call s.storage).2 } := by
  rw [store, bind_of_ok get_run]
  simp only [h]
  rfl

variable [Storage σ]

theorem finalize_not_emitted {e : BridgeError} {b : Bridge} (hp : s.bridge.phase = .collecting)
    (h : emit s.bridge = .error e b) : finalize s = .error e { s with bridge := b } := by
  rw [finalize, bind_of_ok get_run, if_pos hp, bind_of_error (onBridge_error h)]

/-- A collecting bridge is finalized as the bridge that its emission leaves. -/
theorem finalize_of_emit {text : String} {b : Bridge} (hp : s.bridge.phase = .collecting)
    (h : emit s.bridge = .ok text b) : finalize s = finalize { s with bridge := b } := by
  have emitted : b.phase ≠ .collecting := by
    obtain ⟨-, g, -, -, rfl⟩ := emit_eq_ok.mp h
    simp
  rw [finalize, bind_of_ok get_run, if_pos hp, bind_of_ok (onBridge_ok h), bind_of_ok get_run,
    if_neg emitted]

/-- No other phase lets a bridge be finalized. -/
theorem finalize_spent (hc : s.bridge.phase ≠ .collecting) (he : s.bridge.phase ≠ .emitted) :
    finalize s = .error (.phaseViolation .finalize s.bridge.phase) s := by
  rw [finalize, bind_of_ok get_run, if_neg hc]
  beta_reduce
  rw [bind_of_error (onBridge_error (ensurePhase_error he))]

theorem finalize_not_built {e : BridgeError} {b : Bridge} (hp : s.bridge.phase = .emitted)
    (h : buildInstance s.bridge = .error e b) : finalize s = .error e { s with bridge := b } := by
  rw [finalize, bind_of_ok get_run, if_neg (by simp [hp])]
  beta_reduce
  rw [bind_of_ok (onBridge_ok (ensurePhase_ok hp)), bind_of_error (onBridge_error h)]

/-- Once the instance is built, the storage decides. -/
theorem finalize_of_build {inst : Host.Instance} {b : Bridge} (hp : s.bridge.phase = .emitted)
    (h : buildInstance s.bridge = .ok inst b) :
    let directory := join s.platform.board.outputDir "gateware"
    let path := join directory s!"{b.name}.v"
    let made := Storage.makeDirectory directory s.storage
    let written := Storage.writeFile path (b.netlist.getD "") made.2
    finalize s = match made.1, written.1 with
      | false, _ => .error .storage ⟨b, s.platform, made.2⟩
      | true, false => .error .storage ⟨b, s.platform, written.2⟩
      | true, true => .ok path
          ⟨{ b with host := b.host.addPrimitive (.blackBox inst), phase := .finalized },
            { s.platform with sources := s.platform.sources ++ [path] }, written.2⟩ := by
  intro directory path made written
  rw [finalize, bind_of_ok get_run, if_neg (by simp [hp])]
  beta_reduce
  rw [bind_of_ok (onBridge_ok (ensurePhase_ok hp)), bind_of_ok (onBridge_ok h),
    bind_of_ok get_run]
  cases hm : made.1 with
  | false => exact bind_of_error (store_error (s := ⟨b, s.platform, s.storage⟩) hm)
  | true =>
    refine (bind_of_ok (store_ok (s := ⟨b, s.platform, s.storage⟩) hm)).trans ?_
    cases hw : written.1 with
    | false => exact bind_of_error (store_error (s := ⟨b, s.platform, made.2⟩) hw)
    | true => exact bind_of_ok (store_ok (s := ⟨b, s.platform, made.2⟩) hw)

end Stages

variable {σ : Type} [Storage σ]

/-- An emitted bridge is left as it was, or its instance has been built and the storage
has decided what becomes of it. -/
theorem finalize_emitted {s : Build σ} (hp : s.bridge.phase = .emitted) :
    (∃ e, finalize s = .error e s ∧ e ≠ .storage) ∨
    (∃ i s', finalize s = .error (.unallocated i) s') ∨
    ∃ inst host, Inverters s.bridge.host s.bridge.connections host ∧
      ((∃ storage, finalize s = .error .storage
          ⟨{ s.bridge with host, phase := .instantiated }, s.platform, storage⟩) ∨
        ∃ path storage, finalize s = .ok path
          ⟨{ s.bridge with host := host.addPrimitive (.blackBox inst), phase := .finalized },
            { s.platform with sources := s.platform.sources ++ [path] }, storage⟩) := by
  cases hb : buildInstance s.bridge with
  | error e b =>
    rcases buildInstance_error hp hb with ⟨rfl, he⟩ | ⟨i, rfl⟩
    · exact .inl ⟨e, finalize_not_built hp hb, he⟩
    · exact .inr (.inl ⟨i, _, finalize_not_built hp hb⟩)
  | ok inst b =>
    obtain ⟨host, inverters, rfl⟩ := buildInstance_ok hb
    have decided := finalize_of_build hp hb
    refine .inr (.inr ⟨inst, host, inverters, ?_⟩)
    dsimp only at decided
    split at decided
    · exact .inl ⟨_, decided⟩
    · exact .inl ⟨_, decided⟩
    · exact .inr ⟨_, _, decided⟩

/-- The second bridge is what the first one is once it has been emitted. -/
def EmittedFrom (b emitted : Bridge) : Prop :=
  (b.phase = .emitted ∧ emitted = b) ∨ ∃ text, emit b = .ok text emitted

/-- Emission leaves the host, the connections and the guest alone. -/
theorem EmittedFrom.keeps {b emitted : Bridge} (h : EmittedFrom b emitted) :
    emitted.phase = .emitted ∧ emitted.host = b.host ∧ emitted.connections = b.connections := by
  rcases h with ⟨hp, rfl⟩ | ⟨text, h⟩
  · exact ⟨hp, rfl, rfl⟩
  · obtain ⟨-, g, -, -, rfl⟩ := emit_eq_ok.mp h
    exact ⟨rfl, rfl, rfl⟩

theorem EmittedFrom.unique {b c d : Bridge} (hc : EmittedFrom b c) (hd : EmittedFrom b d) :
    c = d := by
  rcases hc with ⟨hp, rfl⟩ | ⟨text, h⟩ <;> rcases hd with ⟨hq, rfl⟩ | ⟨text', h'⟩
  · rfl
  · cases hp.symm.trans (emit_eq_ok.mp h').1
  · cases hq.symm.trans (emit_eq_ok.mp h).1
  · exact (EStateM.Result.ok.inj (h.symm.trans h')).2

/-- A finalization runs on the emitted bridge, unless emission fails and changes nothing. -/
theorem finalize_live {s : Build σ}
    (live : s.bridge.phase = .collecting ∨ s.bridge.phase = .emitted) :
    (s.bridge.phase = .collecting ∧ (∀ b, ¬ EmittedFrom s.bridge b) ∧
      ∃ cause, finalize s = .error (.guest cause) s) ∨
    ∃ b, EmittedFrom s.bridge b ∧ finalize s = finalize { s with bridge := b } := by
  rcases live with hp | hp
  · cases he : emit s.bridge with
    | error e b =>
      obtain ⟨rfl, cause, rfl⟩ := emit_error hp he
      refine .inl ⟨hp, ?_, cause, finalize_not_emitted hp he⟩
      rintro c (⟨hc, -⟩ | ⟨text, hc⟩)
      · cases hp.symm.trans hc
      · cases he.symm.trans hc
    | ok text b => exact .inr ⟨b, .inr ⟨text, he⟩, finalize_of_emit hp he⟩
  · exact .inr ⟨s.bridge, .inl ⟨hp, rfl⟩, rfl⟩

theorem finalize_error {s s' : Build σ} {e : BridgeError}
    (live : s.bridge.phase = .collecting ∨ s.bridge.phase = .emitted)
    (h : finalize s = .error e s') (allocated : ∀ i, e ≠ .unallocated i) :
    (e ≠ .storage ∧ s'.platform = s.platform ∧ s'.storage = s.storage ∧
      (s'.bridge.phase = .collecting ∧ s'.bridge = s.bridge ∨
        EmittedFrom s.bridge s'.bridge)) ∨
    (e = .storage ∧ s'.platform = s.platform ∧ s'.bridge.phase = .instantiated ∧
      Inverters s.bridge.host s.bridge.connections s'.bridge.host) := by
  rcases finalize_live live with ⟨hp, -, cause, failed⟩ | ⟨b, emission, runs⟩
  · obtain ⟨rfl, rfl⟩ := EStateM.Result.error.inj (failed.symm.trans h)
    exact .inl ⟨by simp, rfl, rfl, .inl ⟨hp, rfl⟩⟩
  · obtain ⟨hp, hhost, hconn⟩ := emission.keeps
    rw [runs] at h
    rcases finalize_emitted (s := { s with bridge := b }) hp with
      ⟨e', failed, he⟩ | ⟨i, t, failed⟩ | ⟨inst, host, inverters, ⟨d, failed⟩ | ⟨path, d, done⟩⟩
    · obtain ⟨rfl, rfl⟩ := EStateM.Result.error.inj (failed.symm.trans h)
      exact .inl ⟨he, rfl, rfl, .inr emission⟩
    · exact absurd (EStateM.Result.error.inj (failed.symm.trans h)).1.symm (allocated i)
    · obtain ⟨rfl, rfl⟩ := EStateM.Result.error.inj (failed.symm.trans h)
      rw [hhost, hconn] at inverters
      exact .inr ⟨rfl, rfl, rfl, inverters⟩
    · cases done.symm.trans h

theorem finalize_ok {s s' : Build σ} {path : String}
    (live : s.bridge.phase = .collecting ∨ s.bridge.phase = .emitted)
    (h : finalize s = .ok path s') :
    s'.bridge.phase = .finalized ∧
      s'.platform = { s.platform with sources := s.platform.sources ++ [path] } ∧
      ∃ inst host, Inverters s.bridge.host s.bridge.connections host ∧
        s'.bridge.host = host.addPrimitive (.blackBox inst) := by
  rcases finalize_live live with ⟨hp, -, cause, failed⟩ | ⟨b, emission, runs⟩
  · cases failed.symm.trans h
  · obtain ⟨hp, hhost, hconn⟩ := emission.keeps
    rw [runs] at h
    rcases finalize_emitted (s := { s with bridge := b }) hp with
      ⟨e', failed, he⟩ | ⟨i, t, failed⟩ | ⟨inst, host, inverters, ⟨d, failed⟩ | ⟨path, d, done⟩⟩
    · cases failed.symm.trans h
    · cases failed.symm.trans h
    · cases failed.symm.trans h
    · obtain ⟨rfl, rfl⟩ := EStateM.Result.ok.inj (done.symm.trans h)
      rw [hhost, hconn] at inverters
      exact ⟨rfl, rfl, inst, host, inverters, rfl⟩

/-- A storage that never refuses a call. -/
structure Reliable (σ : Type) [Storage σ] : Prop where
  makeDirectory : ∀ path (d : σ), (Storage.makeDirectory path d).1 = true
  writeFile : ∀ path text (d : σ), (Storage.writeFile path text d).1 = true

theorem finalize_reliable (reliable : Reliable σ) {s : Build σ} {b built : Bridge}
    {inst : Host.Instance} (emission : EmittedFrom s.bridge b)
    (h : buildInstance b = .ok inst built) : ∃ path s', finalize s = .ok path s' := by
  have live : s.bridge.phase = .collecting ∨ s.bridge.phase = .emitted := by
    rcases emission with ⟨hp, -⟩ | ⟨text, he⟩
    · exact .inr hp
    · exact .inl (emit_eq_ok.mp he).1
  rcases finalize_live live with ⟨-, none, -⟩ | ⟨c, hc, runs⟩
  · exact absurd emission (none b)
  · obtain rfl := hc.unique emission
    have decided := finalize_of_build (s := { s with bridge := c }) hc.keeps.1 h
    dsimp only at decided
    rw [reliable.makeDirectory, reliable.writeFile] at decided
    exact ⟨_, _, runs.trans decided⟩

/-- A finalization that fails has not touched the host and can be repeated, except where
the storage failed: then the host has its inverters and no instance, and the bridge can
never be finalized. One that succeeds adds one instance with one set of inverters, and
it does succeed if only the storage could stand in its way and does not. -/
theorem finalize_repeatable_unless_storage_fails {s : Build σ}
    (live : s.bridge.phase = .collecting ∨ s.bridge.phase = .emitted) :
    (∀ e s', finalize s = .error e s' → (∀ i, e ≠ .unallocated i) →
      s'.platform.sources = s.platform.sources ∧
      s'.bridge.host.primitives = s.bridge.host.primitives ∧
      (e ≠ .storage → s'.platform = s.platform ∧ s'.storage = s.storage ∧
        s'.bridge.host = s.bridge.host ∧
        (s'.bridge.phase = .collecting ∧ s'.bridge = s.bridge ∨
          s'.bridge.phase = .emitted ∧ EmittedFrom s.bridge s'.bridge)) ∧
      (e = .storage → s'.bridge.phase = .instantiated ∧
        Inverters s.bridge.host s.bridge.connections s'.bridge.host ∧
        ∀ (τ : Type) [Storage τ] (t : Build τ), t.bridge = s'.bridge →
          finalize t = .error (.phaseViolation .finalize .instantiated) t)) ∧
    (∀ path s', finalize s = .ok path s' → s'.bridge.phase = .finalized ∧
      s'.platform = { s.platform with sources := s.platform.sources ++ [path] } ∧
      ∃ inst host, Inverters s.bridge.host s.bridge.connections host ∧
        s'.bridge.host = host.addPrimitive (.blackBox inst)) ∧
    (Reliable σ → ∀ emitted inst built, EmittedFrom s.bridge emitted →
      buildInstance emitted = .ok inst built → ∃ path s', finalize s = .ok path s') := by
  refine ⟨fun e s' h allocated => ?_, fun path s' => finalize_ok live,
    fun reliable emitted inst built => finalize_reliable reliable⟩
  rcases finalize_error live h allocated with
    ⟨he, hplatform, hstorage, early⟩ | ⟨rfl, hplatform, hphase, inverters⟩
  · have host : s'.bridge.host = s.bridge.host := by
      rcases early with ⟨-, hb⟩ | emission
      · rw [hb]
      · exact emission.keeps.2.1
    refine ⟨by rw [hplatform], by rw [host], fun _ => ⟨hplatform, hstorage, host, ?_⟩,
      fun h => absurd h he⟩
    exact early.imp_right fun emission => ⟨emission.keeps.1, emission⟩
  · refine ⟨by rw [hplatform], inverters.primitives, fun h => absurd rfl h,
      fun _ => ⟨hphase, inverters, ?_⟩⟩
    intro τ _ t ht
    have spent := finalize_spent (s := t) (by simp [ht, hphase]) (by simp [ht, hphase])
    rwa [ht, hphase] at spent

/-- An inverted connection, and a file in the place of the directory for the netlist. -/
def blocked : Build Disk where
  bridge :=
    { name := "core"
      host := { name := "top", signals := ⟨#[⟨"a", .bit⟩]⟩ }
      guest := { signals := ⟨#[⟨"a", .bit, 0⟩]⟩ }
      connections := [⟨⟨0⟩, .signal ⟨0⟩, true⟩] }
  platform := { board := {} }
  storage := { files := [("build/gateware", "")] }

/-- After the refusal the host has grown and the bridge is neither collecting nor emitted,
so an empty disk does not help. -/
theorem blocked_finalize_spends_bridge : ∃ s', finalize blocked = .error .storage s' ∧
    s'.bridge.host ≠ blocked.bridge.host ∧ s'.bridge.phase = .instantiated ∧
    finalize (⟨s'.bridge, s'.platform, {}⟩ : Build Disk) =
      .error (.phaseViolation .finalize .instantiated) ⟨s'.bridge, s'.platform, {}⟩ := by
  have refused : (match finalize blocked with
      | .error .storage s' => decide (s'.bridge.phase = .instantiated ∧
          s'.bridge.host.signals.size = 2)
      | _ => false) = true := by decide +kernel
  split at refused
  · rename_i s' h
    obtain ⟨hphase, hsize⟩ := of_decide_eq_true refused
    have spent := finalize_spent (s := ⟨s'.bridge, s'.platform, ({} : Disk)⟩) (by simp [hphase])
      (by simp [hphase])
    rw [hphase] at spent
    refine ⟨s', h, fun heq => ?_, hphase, spent⟩
    rw [heq] at hsize
    cases hsize
  · cases refused

theorem blocked_finalize_inverts : (blocked.bridge.phase = .collecting ∨
    blocked.bridge.phase = .emitted) ∧ ∃ s', finalize blocked = .error .storage s' ∧
      s'.platform.sources = [] ∧ s'.bridge.host.primitives = [] ∧
      Inverters blocked.bridge.host blocked.bridge.connections s'.bridge.host := by
  have refused : (match finalize blocked with | .error .storage _ => true | _ => false) = true := by
    decide +kernel
  split at refused
  · rename_i s' h
    obtain ⟨hsources, hprimitives, -, spent⟩ :=
      (finalize_repeatable_unless_storage_fails (.inl rfl)).1 _ s' h (by simp)
    exact ⟨.inl rfl, s', h, hsources, hprimitives, (spent rfl).2.1⟩
  · cases refused

end Build

end NetBridge
