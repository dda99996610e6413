import NetBridge.FieldTree

/-! # Boards

A board lists the resources that pads can be requested from, and says what the generated
module is called and where it goes. A resource has a name, perhaps an index, and either a
width or named fields; nothing is checked until its layout is asked for. A layout is a single
pad with a width, or a group of named layouts. -/
namespace NetBridge

inductive BoardError where
  /-- The file is missing or does not hold text. -/
  | unreadable
  /-- The text does not describe a board. -/
  | malformed
  | missingField (field : String)
  | zeroWidth (path : String)
  | widthAndFields (path : String)
  | duplicate (logical : String)
deriving DecidableEq

namespace BoardError

/-- The text of an error, unless it depends on where the board comes from. -/
def message? : BoardError → Option String
  | unreadable | malformed => none
  | missingField field => s!"missing required field: {field}"
  | zeroWidth path => s!"validation error: resource '{path}' has zero width"
  | widthAndFields path => s!"validation error: resource '{path}' sets both width and fields"
  | duplicate logical => s!"validation error: resource '{logical}' is defined more than once"

end BoardError

/-- A single pad. An active-low pad carries the complement of its data. -/
structure PadShape where
  width : Nat
  inverted : Bool
deriving DecidableEq, Inhabited

abbrev Layout := FieldTree PadShape

/-- The name of a resource on a board, with its index if it has one. -/
def logicalName (name : String) : Option Nat → String
  | some index => s!"{name}_{index}"
  | none => name

/-- What a resource or a field of one says about itself. -/
inductive ResourceNode where
  | mk (width : Option Nat) (inverted : Bool) (fields : List (String × ResourceNode))

namespace ResourceNode

mutual

/-- The layout under a path of names with dots between them. -/
def layout (path : String) : ResourceNode → Except BoardError Layout
  | mk (some 0) _ _ => .error (.zeroWidth path)
  | mk (some width) inverted [] => .ok (.leaf ⟨width, inverted⟩)
  | mk (some _) _ (_ :: _) => .error (.widthAndFields path)
  | mk none _ [] => .error (.missingField s!"{path}.width")
  | mk none _ (first :: rest) => do return .group (← fieldLayouts path (first :: rest))

def fieldLayouts (path : String) :
    List (String × ResourceNode) → Except BoardError (List (String × Layout))
  | [] => .ok []
  | (name, node) :: rest => do
    let sub ← layout s!"{path}.{name}" node
    return (name, sub) :: (← fieldLayouts path rest)

end

end ResourceNode

structure Resource where
  name : String
  index : Option Nat
  node : ResourceNode

namespace Resource

def logical (r : Resource) : String := logicalName r.name r.index

def layout (r : Resource) : Except BoardError Layout := r.node.layout r.logical

/-- The resource answers to this name and index. -/
def answers (r : Resource) (name : String) (index : Option Nat) : Bool :=
  r.name == name && r.index == index

end Resource

structure Board where
  moduleName : String := "guest_wrapper"
  outputDir : String := "build"
  device : String := ""
  resources : List Resource := []

namespace Board

/-- The first resource that answers to a name and an index. -/
def resource? (b : Board) (name : String) (index : Option Nat) : Option Resource :=
  b.resources.find? (·.answers name index)

def position? (b : Board) (name : String) (index : Option Nat) : Option Nat :=
  b.resources.findIdx? (·.answers name index)

/-- Checks resources in order, given the names and indices that came before. -/
def checkResources : List (String × Option Nat) → List Resource → Except BoardError Unit
  | _, [] => .ok ()
  | seen, r :: rest => do
    if r.name.isEmpty then throw (.missingField "resource.name")
    if seen.contains (r.name, r.index) then throw (.duplicate r.logical)
    let _ ← r.layout
    checkResources ((r.name, r.index) :: seen) rest

/-- A board can be used if it names the module and the output directory, and if
its resources have distinct keys and layouts. -/
def check (b : Board) : Except BoardError Unit := do
  if b.moduleName.isEmpty then throw (.missingField "bridge.name")
  if b.outputDir.isEmpty then throw (.missingField "bridge.output_dir")
  checkResources [] b.resources

end Board

end NetBridge
