import Mathlib.Data.List.Nodup
import NetBridge.Pad.Mode

/-! # The roles of a mode -/
namespace NetBridge

theorem modeRoles?_nodup {direction : Direction} {rate : Nat} {roles : List Role}
    (h : modeRoles? direction rate = some roles) : roles.Nodup := by
  unfold modeRoles? at h
  split at h
  case h_14 => cases h
  all_goals
    obtain rfl := Option.some.inj h
    decide

theorem modeRoles?_of_ok {direction : Direction} {rate : Nat} {roles : List Role}
    (h : modeRoles direction rate = .ok roles) : modeRoles? direction rate = some roles := by
  rw [modeRoles] at h
  split at h
  · rename_i found
    rw [found, Except.ok.inj h]
  · cases h

/-- Only an idle pad exposes nothing. -/
theorem modeRoles?_nil_iff {direction : Direction} {rate : Nat} {roles : List Role}
    (h : modeRoles? direction rate = some roles) : roles = [] ↔ direction = .idle := by
  unfold modeRoles? at h
  split at h
  case h_14 => cases h
  all_goals
    obtain rfl := Option.some.inj h
    simp

/-- The roles that sampling takes, by rate. -/
theorem roles_of_samples {direction : Direction} {rate : Nat} {roles : List Role}
    (h : modeRoles? direction rate = some roles) (samples : direction.samples = true) :
    (rate = 0 ∧ .i ∈ roles) ∨ (rate = 1 ∧ .i ∈ roles ∧ .iClk ∈ roles) ∨
      (rate = 2 ∧ .i0 ∈ roles ∧ .i1 ∈ roles ∧ .iClk ∈ roles) := by
  unfold modeRoles? at h
  split at h
  case h_14 => cases h
  all_goals
    obtain rfl := Option.some.inj h
    simp [Direction.samples] at samples ⊢

/-- The roles that driving takes, by rate. -/
theorem roles_of_drives {direction : Direction} {rate : Nat} {roles : List Role}
    (h : modeRoles? direction rate = some roles) (drives : direction.drives = true) :
    (rate = 0 ∧ .o ∈ roles) ∨ (rate = 1 ∧ .o ∈ roles ∧ .oClk ∈ roles) ∨
      (rate = 2 ∧ .o0 ∈ roles ∧ .o1 ∈ roles ∧ .oClk ∈ roles) := by
  unfold modeRoles? at h
  split at h
  case h_14 => cases h
  all_goals
    obtain rfl := Option.some.inj h
    simp [Direction.drives] at drives ⊢

end NetBridge
