import NetBridge.Board.Board
import NetBridge.Capability.Signature
import NetBridge.Guest.Netlist
import NetBridge.Pad.Mode

/-! # Phases and errors of bridges

A bridge goes through its phases once, and each operation belongs to one of them. An error
says which input was wrong. Only an internal error means that the bookkeeping of the library
broke a promise of its own. -/
namespace NetBridge

structure InternalError where
  detail : String
deriving DecidableEq

namespace InternalError

def message (e : InternalError) : String := s!"internal error: {e.detail}"

end InternalError

inductive Phase where
  /-- Connections are accepted. -/
  | collecting
  /-- The netlist and the port map exist, and the connections are sealed. -/
  | emitted
  /-- The instance has been built. -/
  | instantiated
  /-- The instance is in the host netlist, and the file is written. -/
  | finalized
deriving DecidableEq

namespace Phase

def all : List Phase := [collecting, emitted, instantiated, finalized]

def text : Phase → String
  | collecting => "collecting"
  | emitted => "emitted"
  | instantiated => "instantiated"
  | finalized => "finalized"

def name : Phase → String
  | collecting => "Collecting"
  | emitted => "Emitted"
  | instantiated => "Instantiated"
  | finalized => "Finalized"

def ofName? (s : String) : Option Phase := all.find? (·.name == s)

end Phase

inductive Operation where
  | connect
  | declareDomain
  | importGuest
  | importHost
  | emit
  | buildInstance
  | finalize
  | adapt
deriving DecidableEq

namespace Operation

def text : Operation → String
  | connect => "connect"
  | declareDomain => "declare a clock domain"
  | importGuest => "import a guest signal"
  | importHost => "import a host signal"
  | emit => "emit"
  | buildInstance => "build the instance"
  | finalize => "finalize"
  | adapt => "adapt a pad"

end Operation

inductive PlatformError where
  | unknownResource (logical : String)
  | board (cause : BoardError)
deriving DecidableEq

namespace PlatformError

def message? : PlatformError → Option String
  | unknownResource logical => s!"platform has no resource '{logical}'"
  | board cause => cause.message?

end PlatformError

inductive BridgeError where
  | portCollision (label : String)
  | unsupportedPad (mode : UnsupportedMode)
  | signatureMismatch (name : String) (detail : SignatureDifference)
  | phaseViolation (operation : Operation) (phase : Phase)
  | missingMember (node member : String)
  /-- The pad was adapted under `name` in another mode. -/
  | padConflict (name : String) (direction : Direction) (rate : Nat)
      (requestedDirection : Direction) (requestedRate : Nat)
  | specShape (name : String)
  | platform (cause : PlatformError)
  | guest (cause : Guest.Error)
  /-- The file could not be written. -/
  | storage
  | internal (cause : InternalError)
  /-- A key that the host netlist never handed out. -/
  | unallocated (index : Nat)

namespace BridgeError

/-- The text of an error, unless it comes from the file system. -/
def message? : BridgeError → Option String
  | portCollision label => s!"port '{label}' is connected more than once"
  | unsupportedPad mode => mode.message
  | signatureMismatch name detail =>
    s!"capability '{name}' does not match its signature: {detail.text}"
  | phaseViolation operation phase => s!"cannot {operation.text} while the bridge is {phase.text}"
  | missingMember node member => s!"capability '{node}' has no member '{member}'"
  | padConflict name direction rate requestedDirection requestedRate =>
    s!"pad '{name}' is already adapted as '{direction.text}' at rate {rate}, " ++
      s!"cannot adapt it as '{requestedDirection.text}' at rate {requestedRate}"
  | specShape name => s!"pad '{name}' is a single signal but was given a per-field spec"
  | platform cause => cause.message?.map fun m => s!"platform error: {m}"
  | guest cause => s!"guest error: {cause.message}"
  | storage => none
  | internal cause => cause.message
  | unallocated index => s!"signal #{index} is not part of the host netlist"

end BridgeError

end NetBridge
