import NetBridge.Board.Board
import NetBridge.Pad.Mode
import NetBridge.Proofs.Arena
import NetBridge.FieldTree
import NetBridge.Proofs.Running
import NetBridge.Proofs.Table

/-! # What a request exposes

A request for a layout names a direction and a rate for each of its leaves. What comes
of it is said here once, without the signals of any netlist: the members of every leaf,
or the first reason to refuse. Hardware and simulation are held against it. -/
namespace NetBridge

/-- Why a request is refused. -/
inductive Refusal where
  | missingMember (node member : String)
  | specShape (name : String)
  | unsupported (mode : UnsupportedMode)
  /-- A leaf was reached without a direction, for which each side has its own default. -/
  | undirected
deriving DecidableEq

/-- The roles of a leaf in order, each with the name and the width of its signal. -/
abbrev Members := Table Role (Option (String × Nat))

namespace Exposure

def single {α : Type} (name : String) (spec : Option (Spec α)) : Except Refusal (Option α) :=
  match Spec.single? spec with
  | some value => .ok value
  | none => .error (.specShape name)

def checkFields {α : Type} (name : String) (fields : List String) (spec : Option (Spec α)) :
    Except Refusal Unit :=
  match Spec.strayField? spec fields with
  | some field => .error (.missingMember name field)
  | none => .ok ()

/-- A member for each of the roles. -/
def members (name : String) (width : Nat) (roles : List Role) : Members :=
  (Role.all.filter (· ∈ roles)).map fun r => (r, some (s!"{name}_{r.text}", r.width width))

def leafMembers (name : String) (width : Nat) (rate : Nat) :
    Option Direction → Except Refusal Members
  | none => .error .undirected
  | some direction =>
    match modeRoles direction rate with
    | .error e => .error (.unsupported e)
    | .ok roles => .ok (members name width roles)

mutual

/-- The members of all leaves under the names of the fields. -/
def expose (name : String) (direction : Option DirectionSpec) (rate : Option RateSpec) :
    Layout → Except Refusal (FieldTree Members)
  | .leaf pad => do
    let direction ← single name direction
    let rate ← single name rate
    return .leaf (← leafMembers name pad.width (rate.getD 0) direction)
  | .group fields => do
    checkFields name (Table.keys fields) direction
    checkFields name (Table.keys fields) rate
    return .group (← exposeFields name direction rate fields)

def exposeFields (name : String) (direction : Option DirectionSpec) (rate : Option RateSpec) :
    List (String × Layout) → Except Refusal (List (String × FieldTree Members))
  | [] => return []
  | (field, layout) :: rest => do
    let tree ← expose s!"{name}_{field}" (Spec.forField direction field)
      (Spec.forField rate field) layout
    return (field, tree) :: (← exposeFields name direction rate rest)

end

section Signals

variable {α : Type} (describe : α → String × Nat)

/-- What the signals behind the roles are called and how wide they are. -/
def named (a : Arena α) (signals : Table Role (Key α)) : Members :=
  signals.map fun p => (p.1, (a.get? p.2).map describe)

/-- All signals of the tree are there. -/
def Allocated (a : Arena α) (t : FieldTree (Table Role (Key α))) : Prop :=
  ∀ signals ∈ t.leaves, ∀ p ∈ signals, a.contains p.2 = true

/-- Signals keep their names and widths while others are added. -/
theorem map_named_extends {a b : Arena α} (h : a.Extends b) {t : FieldTree (Table Role (Key α))}
    (allocated : Allocated a t) : t.map (named describe b) = t.map (named describe a) :=
  FieldTree.map_congr fun signals hs => List.map_congr_left fun p hp => by
    obtain ⟨x, hx⟩ := Arena.exists_get? (allocated signals hs p hp)
    rw [hx, h hx]

/-- The signals of the tree stand for the expected members. -/
structure Exposes (a : Arena α) (t : FieldTree (Table Role (Key α)))
    (expected : FieldTree Members) : Prop where
  allocated : Allocated a t
  members : t.map (named describe a) = expected

theorem Exposes.extends {a b : Arena α} {t : FieldTree (Table Role (Key α))}
    {expected : FieldTree Members} (h : Exposes describe a t expected) (grown : a.Extends b) :
    Exposes describe b t expected :=
  ⟨fun signals hs p hp => grown.contains (h.allocated signals hs p hp),
    (map_named_extends describe grown h.allocated).trans h.members⟩

theorem Exposes.nil (a : Arena α) : Exposes describe a (.group []) (.group []) :=
  ⟨fun _ h => absurd h List.not_mem_nil, rfl⟩

theorem Exposes.cons {a : Arena α} {name : String} {t : FieldTree (Table Role (Key α))}
    {expected : FieldTree Members} {ts : List (String × FieldTree (Table Role (Key α)))}
    {expecteds : List (String × FieldTree Members)} (first : Exposes describe a t expected)
    (others : Exposes describe a (.group ts) (.group expecteds)) :
    Exposes describe a (.group ((name, t) :: ts)) (.group ((name, expected) :: expecteds)) where
  allocated signals h := (List.mem_append.mp h).elim (first.allocated signals)
    (others.allocated signals)
  members := by
    rw [FieldTree.map, FieldTree.mapFields, first.members, FieldTree.group.inj others.members]

/-- Signals for some roles, in the order of all roles, are named as the members are. -/
theorem named_eq_members {a : Arena α} {signals : Table Role (Key α)} {name : String}
    {width : Nat} {roles : List Role} (keys : signals.keys = Role.all.filter (· ∈ roles))
    (described : ∀ p ∈ signals,
      (a.get? p.2).map describe = some (s!"{name}_{p.1.text}", p.1.width width)) :
    named describe a signals = members name width roles := by
  rw [members, ← keys, named, Table.keys, List.map_map]
  exact List.map_congr_left fun p hp => congrArg (Prod.mk p.1) (described p hp)

end Signals

/-- A run ends as it is expected to: with a value that is good for the expected one, or
with the error that stands for the refusal. -/
def Follows {ε σ α β : Type} (errorOf? : Refusal → Option ε) (good : α → σ → β → Prop)
    (result : EStateM.Result ε σ α) : Except Refusal β → Prop
  | .ok expected => ∃ a s, result = .ok a s ∧ good a s expected
  | .error refusal => ∀ e, errorOf? refusal = some e → ∃ s, result = .error e s

namespace Follows

variable {ε σ α β α' β' : Type} {errorOf? : Refusal → Option ε}

theorem bind {x : EStateM ε σ α} {f : α → EStateM ε σ α'} {s : σ}
    {expected : Except Refusal β} {g : β → Except Refusal β'} {good : α → σ → β → Prop}
    {good' : α' → σ → β' → Prop} (hx : Follows errorOf? good (x s) expected)
    (hf : ∀ a t b, good a t b → Follows errorOf? good' (f a t) (g b)) :
    Follows errorOf? good' ((x >>= f) s) (expected >>= g) := by
  cases expected with
  | ok b =>
    obtain ⟨a, t, hrun, hgood⟩ := hx
    rw [bind_of_ok hrun]
    exact hf a t b hgood
  | error refusal =>
    intro e he
    obtain ⟨t, hrun⟩ := hx e he
    exact ⟨t, bind_of_error hrun⟩

theorem map {result : EStateM.Result ε σ α} {expected : Except Refusal β} {g : β → β'}
    {good : α → σ → β → Prop} {good' : α → σ → β' → Prop}
    (h : Follows errorOf? good result expected) (hg : ∀ a s b, good a s b → good' a s (g b)) :
    Follows errorOf? good' result (expected >>= fun b => pure (g b)) := by
  cases expected with
  | ok b =>
    obtain ⟨a, t, hrun, hgood⟩ := h
    exact ⟨a, t, hrun, hg a t b hgood⟩
  | error refusal => exact h

theorem mono {result : EStateM.Result ε σ α} {expected : Except Refusal β}
    {good good' : α → σ → β → Prop} (h : Follows errorOf? good result expected)
    (hgood : ∀ a s b, good a s b → good' a s b) : Follows errorOf? good' result expected := by
  cases expected with
  | ok b => exact h.imp fun a ha => ha.imp fun s hs => ⟨hs.1, hgood a s b hs.2⟩
  | error refusal => exact h

theorem ok {s : σ} {a : α} {b : β} {good : α → σ → β → Prop} (h : good a s b) :
    Follows errorOf? good (.ok a s) (.ok b) :=
  ⟨a, s, rfl, h⟩

theorem error {refusal : Refusal} {e : ε} {s : σ} {good : α → σ → β → Prop}
    (h : errorOf? refusal = some e) :
    Follows errorOf? good (.error e s) (.error refusal) := fun e' h' =>
  ⟨s, by rw [Option.some.inj (h.symm.trans h')]⟩

end Follows

end Exposure

end NetBridge
