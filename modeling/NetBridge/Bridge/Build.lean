import NetBridge.Board.Board
import NetBridge.Bridge.Adaptation
import NetBridge.Bridge.Emission
import NetBridge.Bridge.Error
import NetBridge.Host.Netlist
import NetBridge.Table

/-! # Builds

A build is a bridge together with the platform that it is built for and the storage that its
files go to. A platform hands out the pads of a board and collects the source files: the host
signals of a resource are made on its first request, and later requests get the same pads. A
storage answers each call by whether it succeeded, and may change in either case. A disk is a
storage of files and directories. -/
namespace NetBridge

/-- The path starts at the root, wherever it is looked up. -/
def isAbsolutePath (path : String) : Bool := path.toList.head? == some '/'

class Storage (σ : Type) where
  makeDirectory : String → σ → Bool × σ
  writeFile : String → String → σ → Bool × σ

/-- Directories and files by their paths below the output directory. -/
structure Disk where
  directories : List String := []
  files : Table String String := []

namespace Disk

/-- The longest name of a file, in bytes. -/
def maxNameLength : Nat := 255

/-- The directory and the name of a path. -/
def splitPath (path : String) : String × String :=
  let cs := path.toList
  let name := (cs.reverse.takeWhile (· != '/')).reverse
  (String.ofList (cs.take (cs.length - name.length - 1)), String.ofList name)

def isDirectory (d : Disk) (path : String) : Bool := path.isEmpty || d.directories.contains path

/-- A directory can be made unless a file has its name. -/
def makeDirectory (path : String) (d : Disk) : Bool × Disk :=
  if Table.contains d.files path then (false, d)
  else if d.isDirectory path then (true, d)
  else (true, { d with directories := d.directories ++ [path] })

/-- A file can be written into a directory, under a name that is not too long, is
not the name of a directory and holds no character with the number zero. Nothing can
be written outside of the output directory. -/
def writeFile (path text : String) (d : Disk) : Bool × Disk :=
  let (directory, name) := splitPath path
  if !isAbsolutePath path && d.isDirectory directory && !d.isDirectory path &&
      name.utf8ByteSize ≤ maxNameLength && !name.toList.contains '\x00' then
    (true, { d with files := Table.set d.files path text })
  else
    (false, d)

instance : Storage Disk := ⟨makeDirectory, writeFile⟩

/-- The paths of all files, in order. -/
def paths (d : Disk) : List String := d.files.keys.mergeSort fun a b => !decide (b < a)

end Disk

open Host (PadTree)

structure Platform where
  board : Board
  allocated : Table (String × Option Nat) PadTree := []
  sources : List String := []

namespace Platform

mutual

/-- Makes an unsigned host signal for every leaf of a layout, named after the path. -/
def allocate (name : String) : Layout → StateM Host.Netlist PadTree
  | .leaf pad => do
    let signal ← modifyGet (·.addSignal name (.unsignedBits pad.width))
    return .leaf ⟨signal, pad.width, pad.inverted⟩
  | .group fields => return .group (← allocateFields name fields)

def allocateFields (name : String) :
    List (String × Layout) → StateM Host.Netlist (List (String × PadTree))
  | [] => return []
  | (field, layout) :: rest => do
    let pad ← allocate s!"{name}_{field}" layout
    return (field, pad) :: (← allocateFields name rest)

end

/-- The pads of a resource. -/
def request (p : Platform) (host : Host.Netlist) (name : String) (index : Option Nat) :
    Except PlatformError (PadTree × Platform × Host.Netlist) :=
  match Table.get? p.allocated (name, index) with
  | some pad => .ok (pad, p, host)
  | none =>
    match p.board.resource? name index with
    | none => .error (.unknownResource (logicalName name index))
    | some resource =>
      match resource.layout with
      | .error e => .error (.board e)
      | .ok layout =>
        let (pad, host) := (allocate resource.logical layout).run host
        .ok (pad, { p with allocated := p.allocated ++ [((name, index), pad)] }, host)

end Platform

structure Build (σ : Type) where
  bridge : Bridge
  platform : Platform
  storage : σ

abbrev BuildM (σ : Type) := EStateM BridgeError (Build σ)

namespace Build

variable {σ : Type}

/-- An operation on the bridge alone. -/
def onBridge {α : Type} (x : BridgeM α) : BuildM σ α := fun s =>
  match x s.bridge with
  | .ok a bridge => .ok a { s with bridge }
  | .error e bridge => .error e { s with bridge }

/-- Requests pads from the platform. -/
def requestPads (name : String) (index : Option Nat) : BuildM σ Host.PadTree := do
  let s ← get
  match s.platform.request s.bridge.host name index with
  | .error e => throw (.platform e)
  | .ok (pad, platform, host) =>
    set { s with platform, bridge := { s.bridge with host } }
    return pad

/-- Requests pads and adapts them. The signals are called `pad_name[_index]_role`. -/
def request (name : String) (index : Option Nat) (direction : Option DirectionSpec)
    (rate : Option RateSpec) : BuildM σ Capability := do
  let pad ← requestPads name index
  onBridge (Bridge.adapt s!"pad_{logicalName name index}" direction rate pad)

/-- A path below another one. An absolute path replaces the other one. -/
def join (base path : String) : String :=
  if base.isEmpty || isAbsolutePath path then path
  else if base.endsWith "/" then base ++ path
  else base ++ "/" ++ path

variable [Storage σ]

/-- A call of the storage that must succeed. -/
def store (call : σ → Bool × σ) : BuildM σ Unit := do
  let s ← get
  let (success, storage) := call s.storage
  set { s with storage }
  unless success do throw .storage

/-- Writes the netlist to `gateware/name.v` below the output directory, tells the
platform about it, and puts the instance into the host netlist. The netlist is
emitted first if need be; the instance is built before anything is written. The
path comes back. -/
def finalize : BuildM σ String := do
  if (← get).bridge.phase = .collecting then
    let _ ← onBridge Bridge.emit
  onBridge (Bridge.ensurePhase .emitted .finalize)
  let inst ← onBridge Bridge.buildInstance
  let s ← get
  let directory := join s.platform.board.outputDir "gateware"
  let path := join directory s!"{s.bridge.name}.v"
  store (Storage.makeDirectory directory)
  store (Storage.writeFile path (s.bridge.netlist.getD ""))
  modify fun s => { s with
    platform := { s.platform with sources := s.platform.sources ++ [path] }
    bridge := { s.bridge with
      host := s.bridge.host.addPrimitive (.blackBox inst)
      phase := .finalized } }
  return path

end Build

end NetBridge
