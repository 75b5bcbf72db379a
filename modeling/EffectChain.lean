import EffectChain.Catalog.Basic
import EffectChain.Catalog.Builtin
import EffectChain.Catalog.Descriptor
import EffectChain.Catalog.Directory
import EffectChain.Catalog.File
import EffectChain.Catalog.Listing
import EffectChain.Catalog.Texture
import EffectChain.Command.Arguments
import EffectChain.Command.Basic
import EffectChain.Command.Config
import EffectChain.Command.Flags
import EffectChain.Command.Line
import EffectChain.Command.LogFlags
import EffectChain.Command.Program
import EffectChain.Data.Table
import EffectChain.Describe.Engine
import EffectChain.Describe.Fields
import EffectChain.Describe.Graph
import EffectChain.Describe.ReadGraph
import EffectChain.Describe.ReadProgram
import EffectChain.Document.Basic
import EffectChain.Document.Json
import EffectChain.Document.Read
import EffectChain.Document.Yaml
import EffectChain.Engine.Basic
import EffectChain.Formula.Basic
import EffectChain.Formula.Eval
import EffectChain.Formula.Parser
import EffectChain.Formula.Token
import EffectChain.Formula.Typing
import EffectChain.Fuzzy.Match
import EffectChain.Graph.Allocate
import EffectChain.Graph.Basic
import EffectChain.Graph.Expand
import EffectChain.Graph.Listing
import EffectChain.Hash.Fingerprint
import EffectChain.Live.Completion
import EffectChain.Live.Hint
import EffectChain.Live.History
import EffectChain.Live.Key
import EffectChain.Live.Prompt
import EffectChain.Live.Reply
import EffectChain.Live.Session
import EffectChain.Live.Word
import EffectChain.Log.Failure
import EffectChain.Log.Line
import EffectChain.Log.Logger
import EffectChain.Log.Record
import EffectChain.Main
import EffectChain.Number.Binary
import EffectChain.Number.Duration
import EffectChain.Number.Format
import EffectChain.Number.Read
import EffectChain.Number.Shortest
import EffectChain.Number.Whole
import EffectChain.Plan.Argument
import EffectChain.Plan.Basic
import EffectChain.Plan.Binding
import EffectChain.Plan.Diagnostic
import EffectChain.Plan.Lower
import EffectChain.Plan.Printer
import EffectChain.Program.Parser
import EffectChain.Program.Surface
import EffectChain.Program.Tree
import EffectChain.Proofs.Catalog.Agreement
import EffectChain.Proofs.Catalog.Decoded
import EffectChain.Proofs.Catalog.FailedInstall
import EffectChain.Proofs.Catalog.Reinstall
import EffectChain.Proofs.Catalog.TextureKey
import EffectChain.Proofs.Data.Table
import EffectChain.Proofs.Engine.Overrides
import EffectChain.Proofs.Graph.Allocation
import EffectChain.Proofs.Graph.AnyOrder
import EffectChain.Proofs.Graph.Bindings
import EffectChain.Proofs.Graph.Confinement
import EffectChain.Proofs.Graph.Dataflow
import EffectChain.Proofs.Graph.Expansion
import EffectChain.Proofs.Graph.Optimality
import EffectChain.Proofs.Graph.Passes
import EffectChain.Proofs.Graph.Programs
import EffectChain.Proofs.Graph.Reshaded
import EffectChain.Proofs.Graph.Roles
import EffectChain.Proofs.Graph.SameText
import EffectChain.Proofs.Graph.Sharing
import EffectChain.Proofs.Render.SharedStorage
import EffectChain.Proofs.Graph.Supply
import EffectChain.Proofs.Graph.Targets
import EffectChain.Proofs.Graph.Uniforms
import EffectChain.Proofs.Live.CommandWalk
import EffectChain.Proofs.Live.History
import EffectChain.Proofs.Live.Session
import EffectChain.Proofs.Live.WordRange
import EffectChain.Proofs.Live.WordReplaced
import EffectChain.Proofs.Number.Nearest
import EffectChain.Proofs.Number.Value
import EffectChain.Proofs.Number.Reading
import EffectChain.Proofs.Plan.Aliases
import EffectChain.Proofs.Plan.Arrivals
import EffectChain.Proofs.Plan.Calls
import EffectChain.Proofs.Plan.Circularity
import EffectChain.Proofs.Plan.Constants
import EffectChain.Proofs.Plan.ControlFlow
import EffectChain.Proofs.Plan.Dependency
import EffectChain.Proofs.Plan.FlagGate
import EffectChain.Proofs.Plan.Forest
import EffectChain.Proofs.Plan.Guarding
import EffectChain.Proofs.Plan.Outline
import EffectChain.Proofs.Plan.Kinds
import EffectChain.Proofs.Plan.Lookups
import EffectChain.Proofs.Plan.Lowering
import EffectChain.Proofs.Plan.Numbering
import EffectChain.Proofs.Plan.Outs
import EffectChain.Proofs.Plan.Overriding
import EffectChain.Proofs.Plan.Positions
import EffectChain.Proofs.Plan.Problems
import EffectChain.Proofs.Plan.Quoting
import EffectChain.Proofs.Plan.Ranges
import EffectChain.Proofs.Plan.Reported
import EffectChain.Proofs.Plan.Rounds
import EffectChain.Proofs.Plan.Settled
import EffectChain.Proofs.Plan.Written
import EffectChain.Proofs.Plan.Roundtrip
import EffectChain.Proofs.Program.Arithmetic
import EffectChain.Proofs.Program.Continuation
import EffectChain.Proofs.Program.Extension
import EffectChain.Proofs.Program.Literal
import EffectChain.Proofs.Program.Outcome
import EffectChain.Proofs.Program.Places
import EffectChain.Proofs.Program.Reading
import EffectChain.Proofs.Program.Statements
import EffectChain.Proofs.Program.WellFormed
import EffectChain.Proofs.Registry.Indexes
import EffectChain.Proofs.Registry.Overlay
import EffectChain.Proofs.Registry.Reordered
import EffectChain.Proofs.Render.Bindings
import EffectChain.Proofs.Render.Buffers
import EffectChain.Proofs.Render.Carried
import EffectChain.Proofs.Render.CleanFrame
import EffectChain.Proofs.Render.Dispatches
import EffectChain.Proofs.Render.FailedFrame
import EffectChain.Proofs.Render.FailedLoad
import EffectChain.Proofs.Render.FrameProtocol
import EffectChain.Proofs.Render.Inventory
import EffectChain.Proofs.Render.StepGroups
import EffectChain.Proofs.Render.ProgramCache
import EffectChain.Proofs.Render.Sampling
import EffectChain.Proofs.Render.Schedule
import EffectChain.Proofs.Render.SelfSampling
import EffectChain.Proofs.Render.SlotSharing
import EffectChain.Proofs.Render.Stock
import EffectChain.Proofs.Render.Strays
import EffectChain.Proofs.Render.SurfaceSpecs
import EffectChain.Proofs.Render.SurfaceStore
import EffectChain.Proofs.Render.Workgroups
import EffectChain.Proofs.Source.Position
import EffectChain.Proofs.Token.Separators
import EffectChain.Proofs.Token.Tiling
import EffectChain.Registry.Enums
import EffectChain.Registry.Namespaces
import EffectChain.Registry.Operations
import EffectChain.Render.Backend
import EffectChain.Render.Condition
import EffectChain.Render.Executor
import EffectChain.Render.Frame
import EffectChain.Render.Recorder
import EffectChain.Source.Error
import EffectChain.Source.Position
import EffectChain.Storage.Files
import EffectChain.Text.Basic
import EffectChain.Text.Printable
import EffectChain.Text.Quoted
import EffectChain.Text.Styled
import EffectChain.Text.Utf8
import EffectChain.Token.Basic
import EffectChain.Token.Lexer
import EffectChain.Value.Basic
import EffectChain.Value.Dynamic
