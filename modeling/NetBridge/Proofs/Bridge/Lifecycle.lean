import NetBridge.Proofs.Bridge.Gathering

/-! # The lifecycle of a build

A bridge is emitted, built and finalized once each, whatever is asked of it and in
whatever order. Operations that collect seal nothing; emission seals the connections,
the port map and the netlist; and the only operation that tells the platform about a
file or puts an instance into the host is the finalization that succeeds. -/
namespace NetBridge

/-- The place of a phase in the lifecycle. -/
def Phase.rank : Phase → Nat
  | collecting => 0
  | emitted => 1
  | instantiated => 2
  | finalized => 3

namespace Bridge

/-- There is a netlist exactly if it has been emitted. -/
def Coherent (b : Bridge) : Prop := b.netlist.isSome ↔ b.phase ≠ .collecting

/-- What an emission between the two states has sealed. -/
structure Seals (b b' : Bridge) : Prop where
  frozen : b.phase ≠ .collecting → Frozen b b'
  present : b'.netlist.isSome
  generated : b.phase = .collecting → ∀ text, b'.netlist = some text →
    ∃ emitted, emit b = .ok text emitted

theorem Seals.later {a b c : Bridge} (h : Seals a b) (frozen : Frozen b c) : Seals a c where
  frozen ha := (h.frozen ha).trans frozen
  present := by
    rw [frozen.netlist]
    exact h.present
  generated := by
    rw [frozen.netlist]
    exact h.generated

theorem Seals.of_emit {b b' : Bridge} {text : String} (h : emit b = .ok text b') : Seals b b' := by
  obtain ⟨hp, g, -, rfl, rfl⟩ := emit_eq_ok.mp h
  refine ⟨fun sealed => absurd hp sealed, rfl, fun _ text' ht => ?_⟩
  exact Option.some.inj ht ▸ ⟨_, h⟩

/-- A construction that succeeds seals nothing more and puts no instance into the host. -/
theorem buildInstance_keeps {b b' : Bridge} {inst : Host.Instance}
    (h : buildInstance b = .ok inst b') : b'.phase = .instantiated ∧ Frozen b b' ∧
      b'.host.instances = b.host.instances := by
  obtain ⟨host, inverters, rfl⟩ := buildInstance_ok h
  exact ⟨rfl, ⟨rfl, rfl, rfl⟩, Host.Netlist.instances_of_primitives inverters.primitives⟩

end Bridge

namespace Build

open Bridge (Coherent Frozen Gathering Gathers Seals)

variable {σ : Type}

/-- What can be done to a build. The last four are done from outside, to the netlists that
the bridge lends out, to the platform and to the storage. -/
inductive Action (σ : Type) where
  | connect (source : Host.SignalId) (target : Guest.Target) (invert : Bool)
  | declareDomain (name : String)
  | importFromGuest (id : Guest.SignalId) (invert : Bool)
  | importFromHost (id : Host.SignalId) (name : Option String) (invert : Bool)
  | adapt (name : String) (direction : Option DirectionSpec) (rate : Option RateSpec)
      (pad : Host.PadTree)
  | request (name : String) (index : Option Nat) (direction : Option DirectionSpec)
      (rate : Option RateSpec)
  | emit
  | buildInstance
  | finalize
  | changeGuest (change : Guest.Netlist → Guest.Netlist)
  | changeHost (change : Host.Netlist → Host.Netlist)
  | changePlatform (change : Platform → Platform)
  | changeStorage (change : σ → σ)

/-- The action is no operation of the bridge. -/
def Action.IsOutside : Action σ → Prop
  | changeGuest _ | changeHost _ | changePlatform _ | changeStorage _ => True
  | _ => False

variable [Storage σ]

/-- The build that an action leaves behind, failed or not. -/
def Action.apply : Action σ → Build σ → Build σ
  | connect source target invert, s => stateAfter (onBridge (Bridge.connect source target invert)) s
  | declareDomain name, s => stateAfter (onBridge (Bridge.declareDomain name)) s
  | importFromGuest id invert, s => stateAfter (onBridge (Bridge.importFromGuest id invert)) s
  | importFromHost id name invert, s =>
    stateAfter (onBridge (Bridge.importFromHost id name invert)) s
  | adapt name direction rate pad, s =>
    stateAfter (onBridge (Bridge.adapt name direction rate pad)) s
  | request name index direction rate, s => stateAfter (Build.request name index direction rate) s
  | emit, s => stateAfter (onBridge Bridge.emit) s
  | buildInstance, s => stateAfter (onBridge Bridge.buildInstance) s
  | finalize, s => stateAfter Build.finalize s
  | changeGuest change, s => { s with bridge := { s.bridge with guest := change s.bridge.guest } }
  | changeHost change, s => { s with bridge := { s.bridge with host := change s.bridge.host } }
  | changePlatform change, s => { s with platform := change s.platform }
  | changeStorage change, s => { s with storage := change s.storage }

def run (actions : List (Action σ)) (s : Build σ) : Build σ :=
  actions.foldl (fun s a => a.apply s) s

/-- An action in the build that it meets. -/
structure Step (σ : Type) where
  before : Build σ
  action : Action σ

def Step.after (x : Step σ) : Build σ := x.action.apply x.before

/-- The steps of a run. -/
def steps : Build σ → List (Action σ) → List (Step σ)
  | _, [] => []
  | s, a :: rest => ⟨s, a⟩ :: steps (a.apply s) rest

namespace Step

/-- The step builds an instance, as an operation of its own or within a finalization. -/
def Builds (x : Step σ) : Prop :=
  match x.action with
  | .buildInstance => ∃ inst built, Bridge.buildInstance x.before.bridge = .ok inst built
  | .finalize => ∃ emitted inst built, EmittedFrom x.before.bridge emitted ∧
      Bridge.buildInstance emitted = .ok inst built
  | _ => False

/-- The step tells the platform about no file and puts no instance into the host, unless
it is done from outside. -/
def Quiet (x : Step σ) : Prop :=
  x.action.IsOutside ∨ x.after.platform.sources = x.before.platform.sources ∧
    x.after.bridge.host.instances = x.before.bridge.host.instances

/-- The step is a finalization that writes the text into a file, tells the platform about
that file, and puts one instance into the host. -/
structure Delivers (x : Step σ) (text : String) : Prop where
  finalization : x.action = .finalize
  written : ∃ path storage, Storage.writeFile path text storage = (true, x.after.storage) ∧
    x.after.platform.sources = x.before.platform.sources ++ [path]
  inserted : ∃ inst, x.after.bridge.host.instances = x.before.bridge.host.instances ++ [inst]

end Step

/-- How a finalization can end. -/
inductive Finalizes (s : Build σ) : Build σ → Prop
  | refused : (∀ b, ¬ EmittedFrom s.bridge b) → Finalizes s s
  | unbuilt {e : BridgeError} {b b' : Bridge} : EmittedFrom s.bridge b →
    Bridge.buildInstance b = .error e b' → Finalizes s { s with bridge := b' }
  | unwritten {inst : Host.Instance} {b b' : Bridge} {storage : σ} : EmittedFrom s.bridge b →
    Bridge.buildInstance b = .ok inst b' → Finalizes s ⟨b', s.platform, storage⟩
  | written {inst : Host.Instance} {b b' : Bridge} {path : String} {earlier storage : σ} :
    EmittedFrom s.bridge b → Bridge.buildInstance b = .ok inst b' →
    Storage.writeFile path (b'.netlist.getD "") earlier = (true, storage) →
    Finalizes s ⟨{ b' with host := b'.host.addPrimitive (.blackBox inst), phase := .finalized },
      { s.platform with sources := s.platform.sources ++ [path] }, storage⟩

theorem finalize_finalizes (s : Build σ) : Finalizes s (stateAfter finalize s) := by
  by_cases live : s.bridge.phase = .collecting ∨ s.bridge.phase = .emitted
  · rcases finalize_live live with ⟨-, none, cause, failed⟩ | ⟨b, emission, runs⟩
    · rw [stateAfter_error failed]
      exact .refused none
    · rw [stateAfter, runs, ← stateAfter]
      cases hb : Bridge.buildInstance b with
      | error e b' =>
        rw [stateAfter_error (finalize_not_built emission.keeps.1 hb)]
        exact .unbuilt emission hb
      | ok inst b' =>
        have decided := finalize_of_build (s := { s with bridge := b }) emission.keeps.1 hb
        dsimp only at decided
        split at decided
        · rw [stateAfter_error decided]
          exact .unwritten emission hb
        · rw [stateAfter_error decided]
          exact .unwritten emission hb
        · rename_i wrote
          rw [stateAfter_ok decided]
          exact .written emission hb (Prod.ext wrote rfl)
  · obtain ⟨notCollecting, notEmitted⟩ := not_or.mp live
    rw [stateAfter_error (finalize_spent notCollecting notEmitted)]
    refine .refused ?_
    rintro b (⟨hp, -⟩ | ⟨text, h⟩)
    · exact notEmitted hp
    · exact notCollecting (Bridge.emit_eq_ok.mp h).1

/-- What one step does to the lifecycle. -/
structure Advances (x : Step σ) : Prop where
  forward : x.before.bridge.phase.rank ≤ x.after.bridge.phase.rank
  coherent : Coherent x.after.bridge
  frozen : x.before.bridge.phase ≠ .collecting → Frozen x.before.bridge x.after.bridge
  generated : x.before.bridge.phase = .collecting → ∀ text, x.after.bridge.netlist = some text →
    ∃ emitted, Bridge.emit x.before.bridge = .ok text emitted
  builds : x.Builds → x.before.bridge.phase.rank < 2 ∧ 2 ≤ x.after.bridge.phase.rank
  delivery : (x.Quiet ∧ (x.after.bridge.phase = .finalized → x.before.bridge.phase = .finalized)) ∨
    x.before.bridge.phase ≠ .finalized ∧ x.after.bridge.phase = .finalized ∧
      ∃ text, x.after.bridge.netlist = some text ∧ x.Delivers text

namespace Advances

variable {x : Step σ}

/-- Nothing is sealed, built or delivered. -/
theorem of_gathers (coherent : Coherent x.before.bridge)
    (gathers : Gathers x.before.bridge x.after.bridge) (notBuilt : ¬ x.Builds) (quiet : x.Quiet) :
    Advances x where
  forward := by rw [gathers.phase]
  coherent := by
    rw [Coherent, gathers.netlist, gathers.phase]
    exact coherent
  frozen := gathers.frozen
  generated collecting text h := by
    rw [gathers.netlist] at h
    exact absurd collecting (coherent.mp (by rw [h]; rfl))
  builds h := absurd h notBuilt
  delivery := .inl ⟨quiet, fun h => gathers.phase ▸ h⟩

/-- An operation on the bridge alone that gathers. -/
theorem of_gathering {α : Type} {op : BridgeM α} (coherent : Coherent x.before.bridge)
    (gathering : Gathering op) (result : x.after = stateAfter (onBridge op) x.before)
    (notBuilt : ¬ x.Builds) : Advances x := by
  rw [stateAfter_onBridge] at result
  have gathers := gathering x.before.bridge
  refine .of_gathers coherent ?_ notBuilt (.inr ?_)
  · rw [result]
    exact gathers
  · rw [result]
    exact ⟨rfl, gathers.instances⟩

/-- The netlists, the platform or the storage are changed from outside. -/
theorem of_outside (coherent : Coherent x.before.bridge) (outside : x.action.IsOutside)
    (frozen : Frozen x.before.bridge x.after.bridge)
    (phase : x.after.bridge.phase = x.before.bridge.phase) : Advances x where
  forward := by rw [phase]
  coherent := by
    rw [Coherent, frozen.netlist, phase]
    exact coherent
  frozen _ := frozen
  generated collecting text h := by
    rw [frozen.netlist] at h
    exact absurd collecting (coherent.mp (by rw [h]; rfl))
  builds h := by
    obtain ⟨s, a⟩ := x
    cases a <;> first | exact outside.elim | exact h.elim
  delivery := .inl ⟨.inl outside, fun h => phase ▸ h⟩

/-- The bridge has been emitted by the end of the step, and was not built before. -/
theorem of_seals (seals : Seals x.before.bridge x.after.bridge)
    (early : x.before.bridge.phase.rank < 2) (emitted : x.after.bridge.phase ≠ .collecting)
    (builds : x.Builds → 2 ≤ x.after.bridge.phase.rank)
    (delivery : (x.Quiet ∧ x.after.bridge.phase ≠ .finalized) ∨
      x.after.bridge.phase = .finalized ∧
        ∃ text, x.after.bridge.netlist = some text ∧ x.Delivers text) : Advances x where
  forward := by
    have late : 1 ≤ x.after.bridge.phase.rank := by
      revert emitted
      cases x.after.bridge.phase <;> simp [Phase.rank]
    omega
  coherent := ⟨fun _ => emitted, fun _ => seals.present⟩
  frozen := seals.frozen
  generated := seals.generated
  builds h := ⟨early, builds h⟩
  delivery := by
    have notFinalized : x.before.bridge.phase ≠ .finalized := fun h => by
      rw [h] at early
      exact absurd early (by decide)
    rcases delivery with ⟨quiet, unfinished⟩ | ⟨finished, delivers⟩
    · exact .inl ⟨quiet, fun h => absurd h unfinished⟩
    · exact .inr ⟨notFinalized, finished, delivers⟩

end Advances

theorem EmittedFrom.early {b b' : Bridge} (h : EmittedFrom b b') : b.phase.rank < 2 := by
  rcases h with ⟨hp, -⟩ | ⟨text, h⟩
  · rw [hp]
    decide
  · rw [(Bridge.emit_eq_ok.mp h).1]
    decide

theorem EmittedFrom.seals {b b' : Bridge} (coherent : Coherent b) (h : EmittedFrom b b') :
    Seals b b' := by
  rcases h with ⟨hp, rfl⟩ | ⟨text, h⟩
  · have emitted : b'.phase ≠ .collecting := by simp [hp]
    exact ⟨fun _ => .refl b', coherent.mpr emitted, fun collecting => absurd collecting emitted⟩
  · exact .of_emit h

theorem emit_advances {s : Build σ} (coherent : Coherent s.bridge) : Advances ⟨s, .emit⟩ := by
  have result : Step.after ⟨s, .emit⟩ = { s with bridge := Bridge.after Bridge.emit s.bridge } :=
    stateAfter_onBridge Bridge.emit s
  cases h : Bridge.emit s.bridge with
  | ok text b =>
    rw [Bridge.after, h] at result
    obtain ⟨hp, g, -, -, hb⟩ := Bridge.emit_eq_ok.mp h
    have phase : b.phase = .emitted := by rw [hb]
    have instances : b.host.instances = s.bridge.host.instances := by rw [hb]
    refine .of_seals ?_ (by rw [hp]; decide) (by simp [result, phase]) (fun h => h.elim)
      (.inl ⟨.inr ?_, by simp [result, phase]⟩)
    · rw [result]
      exact .of_emit h
    · rw [result]
      exact ⟨rfl, instances⟩
  | error e b =>
    have same : b = s.bridge := by
      by_cases hp : s.bridge.phase = .collecting
      · exact (Bridge.emit_error hp h).1
      · rw [Bridge.emit, bind_of_error (Bridge.ensurePhase_error hp)] at h
        exact (EStateM.Result.error.inj h).2.symm
    rw [Bridge.after, h, same] at result
    refine .of_gathers coherent ?_ (fun h => h.elim) (.inr ?_)
    · rw [result]
      exact .refl _
    · rw [result]
      exact ⟨rfl, rfl⟩

theorem buildInstance_advances {s : Build σ} (coherent : Coherent s.bridge) :
    Advances ⟨s, .buildInstance⟩ := by
  have result : Step.after ⟨s, .buildInstance⟩ =
      { s with bridge := Bridge.after Bridge.buildInstance s.bridge } :=
    stateAfter_onBridge Bridge.buildInstance s
  cases h : Bridge.buildInstance s.bridge with
  | ok inst b =>
    rw [Bridge.after, h] at result
    have emitted : EmittedFrom s.bridge s.bridge := .inl ⟨Bridge.buildInstance_phase h, rfl⟩
    obtain ⟨phase, frozen, instances⟩ := Bridge.buildInstance_keeps h
    refine .of_seals ?_ emitted.early (by simp [result, phase])
      (fun _ => by simp [result, phase, Phase.rank]) (.inl ⟨.inr ?_, by simp [result, phase]⟩)
    · rw [result]
      exact (emitted.seals coherent).later frozen
    · rw [result]
      exact ⟨rfl, instances⟩
  | error e b =>
    rw [Bridge.after, h] at result
    have gathers := Bridge.buildInstance_gathers h
    refine .of_gathers coherent ?_ ?_ (.inr ?_)
    · rw [result]
      exact gathers
    · rintro ⟨inst, built, construction⟩
      cases h.symm.trans construction
    · rw [result]
      exact ⟨rfl, gathers.instances⟩

theorem finalize_advances {s : Build σ} (coherent : Coherent s.bridge) :
    Advances ⟨s, .finalize⟩ := by
  have ends : Finalizes s (Step.after ⟨s, .finalize⟩) := finalize_finalizes s
  generalize hs' : Step.after ⟨s, .finalize⟩ = s' at ends
  cases ends with
  | refused none =>
    refine .of_gathers coherent ?_ ?_ (.inr ?_)
    · rw [hs']
      exact .refl _
    · rintro ⟨emitted, inst, built, emission, -⟩
      exact none emitted emission
    · rw [hs']
      exact ⟨rfl, rfl⟩
  | @unbuilt e b b' emission failed =>
    obtain ⟨hphase, hhost, -⟩ := emission.keeps
    have gathers := Bridge.buildInstance_gathers failed
    have phase : b'.phase = .emitted := gathers.phase.trans hphase
    refine .of_seals ?_ emission.early (by simp [hs', phase]) ?_
      (.inl ⟨.inr ?_, by simp [hs', phase]⟩)
    · rw [hs']
      exact (emission.seals coherent).later (gathers.frozen (by simp [hphase]))
    · rintro ⟨emitted, inst, built, emission', construction⟩
      obtain rfl := emission.unique emission'
      cases failed.symm.trans construction
    · rw [hs']
      exact ⟨rfl, gathers.instances.trans (by rw [hhost])⟩
  | @unwritten inst b b' storage emission construction =>
    obtain ⟨phase, frozen, instances⟩ := Bridge.buildInstance_keeps construction
    refine .of_seals ?_ emission.early (by simp [hs', phase])
      (fun _ => by simp [hs', phase, Phase.rank]) (.inl ⟨.inr ?_, by simp [hs', phase]⟩)
    · rw [hs']
      exact (emission.seals coherent).later frozen
    · rw [hs']
      exact ⟨rfl, instances.trans (by rw [emission.keeps.2.1])⟩
  | @written inst b b' path earlier storage emission construction wrote =>
    obtain ⟨-, frozen, instances⟩ := Bridge.buildInstance_keeps construction
    have seals : Seals s.bridge b' := (emission.seals coherent).later frozen
    obtain ⟨text, htext⟩ := Option.isSome_iff_exists.mp seals.present
    rw [htext, Option.getD_some] at wrote
    refine .of_seals ?_ emission.early (by simp [hs']) (fun _ => by simp [hs', Phase.rank])
      (.inr ⟨by rw [hs'], text, by rw [hs']; exact htext, rfl, ⟨path, earlier, ?_⟩, inst, ?_⟩)
    · rw [hs']
      exact seals.later ⟨rfl, rfl, rfl⟩
    · rw [hs']
      exact ⟨wrote, rfl⟩
    · rw [hs']
      refine (Host.Netlist.instances_addInstance _ inst).trans ?_
      rw [instances, emission.keeps.2.1]

/-- Every step is one of the lifecycle. -/
theorem Step.advances (x : Step σ) (coherent : Coherent x.before.bridge) : Advances x := by
  obtain ⟨s, a⟩ := x
  cases a with
  | connect source target invert =>
    exact .of_gathering coherent (.connect source target invert) rfl fun h => h
  | declareDomain name => exact .of_gathering coherent (.declareDomain name) rfl fun h => h
  | importFromGuest id invert =>
    exact .of_gathering coherent (.importFromGuest id invert) rfl fun h => h
  | importFromHost id name invert =>
    exact .of_gathering coherent (.importFromHost id name invert) rfl fun h => h
  | adapt name direction rate pad =>
    exact .of_gathering coherent (.adapt name direction rate pad) rfl fun h => h
  | request name index direction rate =>
    obtain ⟨gathers, sources⟩ := request_gathers name index direction rate s
    exact .of_gathers coherent gathers (fun h => h) (.inr ⟨sources, gathers.instances⟩)
  | emit => exact emit_advances coherent
  | buildInstance => exact buildInstance_advances coherent
  | finalize => exact finalize_advances coherent
  | changeGuest | changeHost | changePlatform | changeStorage =>
    exact .of_outside coherent trivial ⟨rfl, rfl, rfl⟩ rfl

/-- What a run preserves. -/
structure Progress (b b' : Bridge) : Prop where
  forward : b.phase.rank ≤ b'.phase.rank
  coherent : Coherent b'
  frozen : b.phase ≠ .collecting → Frozen b b'

theorem Advances.progress {x : Step σ} (h : Advances x) : Progress x.before.bridge x.after.bridge :=
  ⟨h.forward, h.coherent, h.frozen⟩

theorem Progress.trans {a b c : Bridge} (hab : Progress a b) (hbc : Progress b c) :
    Progress a c where
  forward := hab.forward.trans hbc.forward
  coherent := hbc.coherent
  frozen ha := by
    have hb : b.phase ≠ .collecting := fun hb => by
      have forward := hab.forward
      revert ha forward
      rw [hb]
      cases a.phase <;> simp [Phase.rank]
    exact (hab.frozen ha).trans (hbc.frozen hb)

theorem run_progress (actions : List (Action σ)) {s : Build σ} (coherent : Coherent s.bridge) :
    Progress s.bridge (run actions s).bridge := by
  induction actions generalizing s with
  | nil => exact ⟨le_refl _, coherent, fun _ => .refl _⟩
  | cons a rest ih =>
    have first := Step.advances ⟨s, a⟩ coherent
    exact first.progress.trans (ih first.coherent)

theorem run_append (earlier later : List (Action σ)) (s : Build σ) :
    run (earlier ++ later) s = run later (run earlier s) :=
  List.foldl_append

theorem steps_forward {actions : List (Action σ)} {s : Build σ} (coherent : Coherent s.bridge) :
    ∀ x ∈ steps s actions, Coherent x.before.bridge ∧
      s.bridge.phase.rank ≤ x.before.bridge.phase.rank := by
  induction actions generalizing s with
  | nil => simp [steps]
  | cons a rest ih =>
    have first := Step.advances ⟨s, a⟩ coherent
    refine List.forall_mem_cons.mpr ⟨⟨coherent, le_refl _⟩, fun x hx => ?_⟩
    obtain ⟨hcoherent, later⟩ := ih first.coherent x hx
    exact ⟨hcoherent, first.forward.trans later⟩

/-- The netlist of a run that starts collecting comes from one of its emissions. -/
theorem run_generated {actions : List (Action σ)} {s : Build σ} (coherent : Coherent s.bridge)
    (collecting : s.bridge.phase = .collecting) {text : String}
    (h : (run actions s).bridge.netlist = some text) :
    ∃ x ∈ steps s actions, ∃ emitted, Bridge.emit x.before.bridge = .ok text emitted := by
  induction actions generalizing s with
  | nil =>
    have absent : ¬ s.bridge.netlist.isSome := mt coherent.mp (not_not.mpr collecting)
    rw [show s.bridge.netlist = some text from h] at absent
    exact absurd rfl absent
  | cons a rest ih =>
    have first := Step.advances ⟨s, a⟩ coherent
    by_cases still : (Step.after ⟨s, a⟩).bridge.phase = .collecting
    · obtain ⟨x, hx, emission⟩ := ih first.coherent still h
      exact ⟨x, List.mem_cons_of_mem _ hx, emission⟩
    · have frozen := (run_progress rest first.coherent).frozen still
      exact ⟨_, List.mem_cons_self, first.generated collecting text (frozen.netlist.symm.trans h)⟩

/-- After a step that has built an instance no step builds one. -/
theorem steps_build_once {actions : List (Action σ)} {s : Build σ} (coherent : Coherent s.bridge) :
    (steps s actions).Pairwise fun x y => x.Builds → ¬ y.Builds := by
  induction actions generalizing s with
  | nil => exact .nil
  | cons a rest ih =>
    have first := Step.advances ⟨s, a⟩ coherent
    refine List.pairwise_cons.mpr ⟨fun y hy built again => ?_, ih first.coherent⟩
    obtain ⟨hcoherent, later⟩ := steps_forward first.coherent y hy
    have early := ((y.advances hcoherent).builds again).1
    have late := (first.builds built).2
    change (Step.after ⟨s, a⟩).bridge.phase.rank ≤ _ at later
    omega

theorem eq_finalized {p : Phase} (h : Phase.finalized.rank ≤ p.rank) : p = .finalized := by
  cases p <;> simp [Phase.rank] at h ⊢

theorem steps_quiet {actions : List (Action σ)} {s : Build σ} (coherent : Coherent s.bridge)
    (finalized : s.bridge.phase = .finalized) : ∀ x ∈ steps s actions, x.Quiet := by
  intro x hx
  obtain ⟨hcoherent, later⟩ := steps_forward coherent x hx
  rw [finalized] at later
  rcases (x.advances hcoherent).delivery with ⟨quiet, -⟩ | ⟨unfinished, -⟩
  · exact quiet
  · exact absurd (eq_finalized later) unfinished

/-- A run that starts before the finalization and ends after it delivers in one of its
steps; one that ends before it delivers in none. -/
theorem run_delivers (actions : List (Action σ)) {s : Build σ} (coherent : Coherent s.bridge)
    (unfinished : s.bridge.phase ≠ .finalized) :
    ((run actions s).bridge.phase = .finalized → ∃ text before x after,
      (run actions s).bridge.netlist = some text ∧ steps s actions = before ++ x :: after ∧
      x.Delivers text ∧ ∀ y ∈ before ++ after, y.Quiet) ∧
    ((run actions s).bridge.phase ≠ .finalized → ∀ x ∈ steps s actions, x.Quiet) := by
  induction actions generalizing s with
  | nil => exact ⟨fun h => absurd h unfinished, by simp [steps]⟩
  | cons a rest ih =>
    have first := Step.advances ⟨s, a⟩ coherent
    rcases first.delivery with ⟨quiet, still⟩ | ⟨-, finalized, text, htext, delivers⟩
    · obtain ⟨delivered, undelivered⟩ := ih first.coherent (mt still unfinished)
      refine ⟨fun h => ?_, fun h => List.forall_mem_cons.mpr ⟨quiet, undelivered h⟩⟩
      obtain ⟨text, before, x, after, htext, hsteps, delivers, others⟩ := delivered h
      exact ⟨text, ⟨s, a⟩ :: before, x, after, htext, congrArg _ hsteps, delivers,
        List.forall_mem_cons.mpr ⟨quiet, others⟩⟩
    · have progress := run_progress rest first.coherent
      refine ⟨fun _ => ⟨text, [], _, _, ?_, rfl, delivers, steps_quiet first.coherent finalized⟩,
        fun h => absurd (eq_finalized ?_) h⟩
      · exact (progress.frozen (by simp [finalized])).netlist.trans htext
      · rw [← finalized]
        exact progress.forward

/-- A lifecycle that is gone through once. -/
structure OneShot (s : Build σ) (actions : List (Action σ)) : Prop where
  /-- No phase is returned to. -/
  forward : ∀ earlier later, actions = earlier ++ later →
    (run earlier s).bridge.phase.rank ≤ (run actions s).bridge.phase.rank
  present : (run actions s).bridge.netlist.isSome ↔ (run actions s).bridge.phase ≠ .collecting
  /-- The netlist is what an emission in the run has generated. -/
  generated : ∀ text, (run actions s).bridge.netlist = some text →
    ∃ x ∈ steps s actions, ∃ emitted, Bridge.emit x.before.bridge = .ok text emitted
  /-- What emission seals never changes again. -/
  frozen : ∀ earlier later, actions = earlier ++ later →
    (run earlier s).bridge.phase ≠ .collecting → Frozen (run earlier s).bridge (run actions s).bridge
  /-- No two steps build an instance. -/
  built : (steps s actions).Pairwise fun x y => x.Builds → ¬ y.Builds
  /-- A finalized bridge has been finalized in one step, with the netlist that it has now. -/
  delivered : (run actions s).bridge.phase = .finalized → ∃ text before x after,
    (run actions s).bridge.netlist = some text ∧ steps s actions = before ++ x :: after ∧
    x.Delivers text ∧ ∀ y ∈ before ++ after, y.Quiet
  undelivered : (run actions s).bridge.phase ≠ .finalized → ∀ x ∈ steps s actions, x.Quiet

/-- Whatever is done to a new bridge and the netlists that it lends out, in whatever order
and with whatever success, its lifecycle is gone through once. -/
theorem lifecycle_is_one_shot (name : String) (host : Host.Netlist) (platform : Platform)
    (storage : σ) (actions : List (Action σ)) :
    OneShot ⟨{ name, host }, platform, storage⟩ actions := by
  have coherent : Coherent { name, host } := by simp [Coherent]
  obtain ⟨delivered, undelivered⟩ :=
    run_delivers actions (s := ⟨{ name, host }, platform, storage⟩) coherent (by simp)
  have parts : ∀ earlier later, actions = earlier ++ later →
      Progress (run earlier ⟨{ name, host }, platform, storage⟩).bridge
        (run actions ⟨{ name, host }, platform, storage⟩).bridge := by
    rintro earlier later rfl
    rw [run_append]
    exact run_progress later (run_progress earlier coherent).coherent
  exact {
    forward := fun earlier later h => (parts earlier later h).forward
    present := (run_progress actions coherent).coherent
    generated := fun text => run_generated coherent rfl
    frozen := fun earlier later h => (parts earlier later h).frozen
    built := steps_build_once coherent
    delivered, undelivered }

/-- Emission, an attempt to connect, and two finalizations: one file and one instance. -/
example :
    let s := run [.emit, .connect ⟨0⟩ (.signal ⟨0⟩) false, .finalize, .finalize]
      (Build.mk { name := "core", host := { name := "top" } } { board := {} } ({} : Disk))
    s.bridge.phase = .finalized ∧ s.bridge.connections = [] ∧
      s.platform.sources = ["build/gateware/core.v"] ∧ s.bridge.host.primitives.length = 1 ∧
      s.storage.paths = ["build/gateware/core.v"] := by
  decide +kernel

end Build

end NetBridge
