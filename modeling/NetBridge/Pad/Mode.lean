import NetBridge.FieldTree

/-! # Pad modes

A mode is a direction, which says how data crosses a physical pad, together with a rate: the
number of samples that cross the pad in a clock cycle, 0 meaning that no clock is involved.
An adapted pad exposes a signal for each role of its mode. Hardware and simulation read the
same table, so both expose the same members. A spec gives a direction or a rate to a pad: one
value for the pad and all of its fields, or a spec for each field. A missing spec leaves the
choice to the receiver. -/
namespace NetBridge

inductive Direction where
  /-- The pad is left alone and exposes nothing. -/
  | idle
  | input
  | output
  /-- A tristate buffer whose sampled input is exposed. -/
  | inout
  /-- A tristate buffer whose input side is wired but not exposed. -/
  | drive
deriving DecidableEq, Inhabited

namespace Direction

def all : List Direction := [idle, input, output, inout, drive]

def text : Direction → String
  | idle => "-"
  | input => "i"
  | output => "o"
  | inout => "io"
  | drive => "oe"

/-- Data is sampled from the pad. -/
def samples : Direction → Bool
  | input | inout => true
  | _ => false

/-- Data is driven onto the pad. -/
def drives : Direction → Bool
  | output | inout | drive => true
  | _ => false

def ofText? (s : String) : Option Direction := all.find? (·.text == s)

/-- What is said of a text that names no direction. -/
def unknownText (s : String) : String :=
  s!"unknown pad direction '{s}' (expected one of -, i, o, io, oe)"

theorem mem_all (d : Direction) : d ∈ all := by cases d <;> decide

theorem ofText?_text (d : Direction) : ofText? d.text = some d := by cases d <;> decide

end Direction

/-- Who drives a member, seen from the logic that uses the capability. -/
inductive Flow where
  | inward
  | outward
deriving DecidableEq, Inhabited

namespace Flow

def flip : Flow → Flow
  | inward => outward
  | outward => inward

def text : Flow → String
  | inward => "In"
  | outward => "Out"

end Flow

inductive Role where
  | i
  | o
  | oe
  | iClk
  | oClk
  | i0
  | i1
  | o0
  | o1
deriving DecidableEq, Inhabited

namespace Role

/-- Every role, in the order in which the members of a leaf are listed. -/
def all : List Role := [i, o, oe, iClk, oClk, i0, i1, o0, o1]

def text : Role → String
  | i => "i"
  | o => "o"
  | oe => "oe"
  | iClk => "i_clk"
  | oClk => "o_clk"
  | i0 => "i0"
  | i1 => "i1"
  | o0 => "o0"
  | o1 => "o1"

def ofText? (s : String) : Option Role := all.find? (·.text == s)

/-- Samples come out of the capability, everything else goes in. -/
def flow : Role → Flow
  | i | i0 | i1 => .outward
  | _ => .inward

/-- The member carries pad data, which an active-low pad inverts. -/
def isData : Role → Bool
  | oe | iClk | oClk => false
  | _ => true

/-- The width of the member on a pad of the given width. -/
def width (r : Role) (padWidth : Nat) : Nat := if r.isData then padWidth else 1

theorem mem_all (r : Role) : r ∈ all := by cases r <;> decide

theorem ofText?_text (r : Role) : ofText? r.text = some r := by cases r <;> decide

end Role

/-- A mode that has no entry in the table. -/
structure UnsupportedMode where
  direction : Direction
  rate : Nat
deriving DecidableEq

namespace UnsupportedMode

def message (e : UnsupportedMode) : String :=
  s!"pad direction '{e.direction.text}' at rate {e.rate} is not supported"

end UnsupportedMode

/-- The members that a leaf exposes. A bidirectional pad has no double-rate form. -/
def modeRoles? : Direction → Nat → Option (List Role)
  | .idle, 0 | .idle, 1 | .idle, 2 => some []
  | .input, 0 => some [.i]
  | .input, 1 => some [.i, .iClk]
  | .input, 2 => some [.i0, .i1, .iClk]
  | .output, 0 => some [.o]
  | .output, 1 => some [.o, .oClk]
  | .output, 2 => some [.o0, .o1, .oClk]
  | .inout, 0 => some [.i, .o, .oe]
  | .inout, 1 => some [.i, .o, .oe, .iClk, .oClk]
  | .drive, 0 => some [.o, .oe]
  | .drive, 1 => some [.o, .oe, .oClk]
  | _, _ => none

def modeRoles (direction : Direction) (rate : Nat) : Except UnsupportedMode (List Role) :=
  match modeRoles? direction rate with
  | some roles => .ok roles
  | none => .error ⟨direction, rate⟩

/-- A leaf is a value for everything below, a group has a spec for each field. -/
abbrev Spec (α : Type) := FieldTree α

abbrev DirectionSpec := Spec Direction

abbrev RateSpec := Spec Nat

namespace Spec

variable {α : Type}

/-- What a spec says about one field. -/
def forField (spec : Option (Spec α)) (name : String) : Option (Spec α) :=
  match spec with
  | none => none
  | some (.leaf value) => some (.leaf value)
  | some (.group fields) => Table.get? fields name

/-- What a spec says about each of the named fields. -/
def spread (spec : Option (Spec α)) (names : List String) : Table String (Option (Spec α)) :=
  Table.ofPairs (names.map fun name => (name, forField spec name))

/-- The first field that a spec names and the pad does not have. -/
def strayField? (spec : Option (Spec α)) (names : List String) : Option String :=
  match spec with
  | some (.group fields) => (Table.keys fields).find? fun name => !names.contains name
  | _ => none

/-- The value for a single pad, if any; there is no answer if the spec is per field. -/
def single? : Option (Spec α) → Option (Option α)
  | none => some none
  | some (.leaf value) => some (some value)
  | some (.group _) => none

end Spec

end NetBridge
