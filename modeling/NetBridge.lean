import NetBridge.Pad.Mode
import NetBridge.Json.Form
import NetBridge.Toml.Reader
import NetBridge.Board.Document
import NetBridge.Host.Evaluation
import NetBridge.Guest.Generation
import NetBridge.Guest.Form
import NetBridge.Host.Form
import NetBridge.Capability.Form
import NetBridge.Capability.Lookup
import NetBridge.Bridge.Basic
import NetBridge.Bridge.Build
import NetBridge.Simulation.Bench
import NetBridge.Proofs.Table
import NetBridge.Proofs.Verilog.Identifier
import NetBridge.Proofs.Guest.Check
import NetBridge.Proofs.Guest.Naming
import NetBridge.Proofs.Guest.Generation
import NetBridge.Proofs.Shape
import NetBridge.Proofs.Bridge.PortMap
import NetBridge.Proofs.Bridge.Operation
import NetBridge.Proofs.Bridge.Collision
import NetBridge.Proofs.Bridge.Run
import NetBridge.Proofs.Host.Instance
import NetBridge.Proofs.Bridge.Instance
import NetBridge.Proofs.Guest.Built
import NetBridge.Proofs.Guest.Lowering
import NetBridge.Proofs.Guest.Body
import NetBridge.Proofs.Guest.Drivers
import NetBridge.Proofs.Verilog.Reader
import NetBridge.Proofs.Verilog.RoundTrip
import NetBridge.Proofs.Verilog.ReadModule
import NetBridge.Proofs.Number
import NetBridge.Proofs.Verilog.Semantics
import NetBridge.Proofs.Verilog.Edge
import NetBridge.Proofs.Guest.Value
import NetBridge.Proofs.Guest.Meaning
import NetBridge.Proofs.Guest.Evaluation
import NetBridge.Proofs.Guest.Registers
import NetBridge.Proofs.Running
import NetBridge.Proofs.Arena
import NetBridge.Proofs.Capability.Signature
import NetBridge.Proofs.Pad.Mode
import NetBridge.Proofs.Pad.Exposure
import NetBridge.Proofs.Bridge.Finalization
import NetBridge.Proofs.Bridge.Synthesis
import NetBridge.Proofs.Bridge.Leaf
import NetBridge.Proofs.Bridge.Rejection
import NetBridge.Proofs.Bridge.Exposure
import NetBridge.Proofs.Bridge.Request
import NetBridge.Proofs.Simulation.Request
import NetBridge.Proofs.Simulation.Rejection
import NetBridge.Proofs.Simulation.Exposure
import NetBridge.Proofs.Parity
import NetBridge.Proofs.Host.Evaluation
import NetBridge.Proofs.Bridge.Inversion
import NetBridge.Proofs.Bridge.Prescription
import NetBridge.Proofs.Bridge.Gathering
import NetBridge.Proofs.Bridge.Lifecycle
import NetBridge.Proofs.Bridge.Placement
import NetBridge.Proofs.Bridge.Wiring
import NetBridge.Proofs.Bridge.Complement
import NetBridge.Proofs.Json.Text
import NetBridge.Proofs.Json.Form
import NetBridge.Proofs.Guest.Form
import NetBridge.Proofs.Host.Form
import NetBridge.Proofs.Capability.Form
import NetBridge.Proofs.Json.Lossless
import NetBridge.Proofs.Simulation.Kernel
import NetBridge.Proofs.Simulation.Writers
import NetBridge.Proofs.Simulation.Setup
import NetBridge.Proofs.Simulation.Following
import NetBridge.Proofs.Simulation.RateZero
import NetBridge.Proofs.Simulation.Reordering
import NetBridge.Proofs.Simulation.Ownership
import NetBridge.Proofs.Simulation.Session
import NetBridge.Proofs.Simulation.Attachment
import NetBridge.Proofs.Simulation.Registration
import NetBridge.Proofs.Simulation.Layers
import NetBridge.Proofs.Simulation.Tracing
import NetBridge.Proofs.Simulation.Clocking
import NetBridge.Proofs.Simulation.RateOne
import NetBridge.Proofs.Simulation.RateTwo
import NetBridge.Proofs.Crossing
import NetBridge.Proofs.Verilog.Reserved
import NetBridge.Proofs.Verilog.Selection
import NetBridge.Proofs.Guest.Subterm
import NetBridge.Proofs.Guest.Violation
import NetBridge.Proofs.Guest.Acceptance
import NetBridge.Proofs.Guest.Temporary
import NetBridge.Proofs.Guest.Legality
import NetBridge.Proofs.Guest.Selection
import NetBridge.Proofs.Guest.Size
import NetBridge.Proofs.Guest.PortList
import NetBridge.Proofs.Bridge.ConnectionOrder
import NetBridge.Proofs.Bridge.Aggregate
import NetBridge.Proofs.Simulation.DeltaLimit
import NetBridge.Proofs.Bridge.Atomicity
import NetBridge.Proofs.Bridge.Repetition
import NetBridge.Proofs.Bridge.SelfCheck
import NetBridge.Proofs.Simulation.History
import NetBridge.Proofs.Host.Solution
import NetBridge.Proofs.Host.Meaning
import NetBridge.Proofs.Board.Validation
import NetBridge.Proofs.Capability.Difference
import NetBridge.Proofs.Bridge.PortLookup
import NetBridge.Proofs.Bridge.Allocation
import NetBridge.Proofs.Toml.Distinct
import NetBridge.Proofs.Board.Fields
import NetBridge.Proofs.Simulation.Naming
import NetBridge.Proofs.Simulation.Uniqueness
import NetBridge.Proofs.Simulation.DeltaCount
