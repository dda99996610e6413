import NetBridge.Proofs.Bridge.Lifecycle

/-! # What every build does to its bridge

A relation between bridges that holds of what the operations of a bridge do, and of what is
done from outside, holds of the first bridge and the last one of every run of a build. -/
namespace NetBridge.Build

open Bridge (Admits AdmitsFresh)

/-- The relation holds of whatever the operations of a build do to its bridge. -/
structure Spans (R : Bridge → Bridge → Prop) : Prop extends Admits R where
  fresh : AdmitsFresh R
  sealed (b : Bridge) (netlist : Option String) (portMap : PortMap) : b.phase = .collecting →
    R b { b with netlist, portMap, phase := .emitted }
  spent (b : Bridge) : R b { b with phase := .instantiated }
  finalized (b : Bridge) (p : Host.Primitive) :
    R b { b with host := b.host.addPrimitive p, phase := .finalized }

namespace Spans

variable {σ : Type} [Storage σ] {R : Bridge → Bridge → Prop}

theorem emitted (h : Spans R) {b b' : Bridge} (emission : EmittedFrom b b') : R b b' := by
  rcases emission with ⟨-, rfl⟩ | ⟨text, emission⟩
  · exact h.refl _
  · have result := h.emit (b := b) h.sealed
    rwa [Bridge.after, emission] at result

theorem finalize (h : Spans R) (s : Build σ) : R s.bridge (stateAfter finalize s).bridge := by
  have building (b : Bridge) := h.buildInstance (b := b) h.spent
  have ends := finalize_finalizes s
  generalize stateAfter Build.finalize s = s' at ends ⊢
  cases ends with
  | refused => exact h.refl _
  | @unbuilt e b b' emission failed =>
    have result := building b
    rw [Bridge.after, failed] at result
    exact h.trans (h.emitted emission) result
  | @unwritten inst b b' storage emission built =>
    have result := building b
    rw [Bridge.after, built] at result
    exact h.trans (h.emitted emission) result
  | @written inst b b' path earlier storage emission built =>
    have result := building b
    rw [Bridge.after, built] at result
    exact h.trans (h.trans (h.emitted emission) result) (h.finalized b' (.blackBox inst))

/-- One action. -/
theorem apply (h : Spans R) (a : Action σ) (s : Build σ)
    (outside : a.IsOutside → R s.bridge (a.apply s).bridge) : R s.bridge (a.apply s).bridge := by
  have onBridge {α : Type} {x : BridgeM α} (result : R s.bridge (Bridge.after x s.bridge)) :
      R s.bridge (stateAfter (onBridge x) s).bridge := by
    rw [stateAfter_onBridge]
    exact result
  cases a with
  | connect source target invert => exact onBridge (h.connect ..)
  | declareDomain name => exact onBridge (h.declareDomain name)
  | importFromGuest id invert => exact onBridge (h.importFromGuest ..)
  | importFromHost id name invert => exact onBridge (h.importFromHost ..)
  | adapt name direction rate pad => exact onBridge (h.adapt h.fresh ..)
  | request name index direction rate =>
    rw [Action.apply]
    rcases request_cases name index direction rate s with
      same | ⟨pads, platform, host, granted, result⟩
    · rw [same]
      exact h.refl _
    · rw [result]
      refine h.trans ?_ (h.adapt h.fresh _ direction rate pads { s.bridge with host })
      rcases Platform.request_ok granted with ⟨-, -, rfl⟩ | ⟨-, -, out, signals, rfl⟩
      · exact h.refl _
      · exact h.host s.bridge out.adds.grown rfl
  | emit => exact onBridge (h.emit h.sealed)
  | buildInstance => exact onBridge (h.buildInstance h.spent)
  | finalize => exact h.finalize s
  | changeGuest | changeHost | changePlatform | changeStorage => exact outside trivial

theorem run (h : Spans R) {actions : List (Action σ)}
    (outside : ∀ a ∈ actions, a.IsOutside → ∀ s, R s.bridge (a.apply s).bridge) (s : Build σ) :
    R s.bridge (run actions s).bridge := by
  induction actions generalizing s with
  | nil => exact h.refl _
  | cons a rest ih =>
    obtain ⟨first, others⟩ := List.forall_mem_cons.mp outside
    exact h.trans (h.apply a s fun out => first out s) (ih others (a.apply s))

end Spans

end NetBridge.Build
