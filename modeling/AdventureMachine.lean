import AdventureMachine.Adventure
import AdventureMachine.Assembly
import AdventureMachine.ByteBuffer
import AdventureMachine.Bytes
import AdventureMachine.Error
import AdventureMachine.Image
import AdventureMachine.Instruction
import AdventureMachine.Listing
import AdventureMachine.Log
import AdventureMachine.Log.Json
import AdventureMachine.Log.Logger
import AdventureMachine.Machine
import AdventureMachine.Machine.Run
import AdventureMachine.Main
import AdventureMachine.Memory
import AdventureMachine.Number
import AdventureMachine.Number.Precision
import AdventureMachine.Number.Reading
import AdventureMachine.Number.Text
import AdventureMachine.Objects
import AdventureMachine.Opcode
import AdventureMachine.Proofs.Atomicity
import AdventureMachine.Proofs.Calibration
import AdventureMachine.Proofs.Codec
import AdventureMachine.Proofs.Compiler
import AdventureMachine.Proofs.ControlFlow
import AdventureMachine.Proofs.Conversation
import AdventureMachine.Proofs.Disassembly
import AdventureMachine.Proofs.Dispatch
import AdventureMachine.Proofs.Driver
import AdventureMachine.Proofs.Emission
import AdventureMachine.Proofs.Excursion
import AdventureMachine.Proofs.Execution
import AdventureMachine.Proofs.Fork
import AdventureMachine.Proofs.Guest
import AdventureMachine.Proofs.ImageFormat
import AdventureMachine.Proofs.InstructionTable
import AdventureMachine.Proofs.Interchange
import AdventureMachine.Proofs.Invariant
import AdventureMachine.Proofs.Isolation
import AdventureMachine.Proofs.Layout
import AdventureMachine.Proofs.LineLoop
import AdventureMachine.Proofs.LineReader
import AdventureMachine.Proofs.LineText
import AdventureMachine.Proofs.ListedRun
import AdventureMachine.Proofs.Operand
import AdventureMachine.Proofs.Orderings
import AdventureMachine.Proofs.Ownership
import AdventureMachine.Proofs.Patience
import AdventureMachine.Proofs.Progress
import AdventureMachine.Proofs.Reachability
import AdventureMachine.Proofs.Responses
import AdventureMachine.Proofs.Resume
import AdventureMachine.Proofs.RoomCoverage
import AdventureMachine.Proofs.RoomGrammar
import AdventureMachine.Proofs.RoomSearch
import AdventureMachine.Proofs.RoomText
import AdventureMachine.Proofs.Safety
import AdventureMachine.Proofs.SavedGame
import AdventureMachine.Proofs.Schedule
import AdventureMachine.Proofs.SnapshotFormat
import AdventureMachine.Proofs.Storage
import AdventureMachine.Proofs.Sweep
import AdventureMachine.Proofs.Teleporter
import AdventureMachine.Proofs.Text
import AdventureMachine.Proofs.Transport
import AdventureMachine.Proofs.VaultMap
import AdventureMachine.Proofs.VaultSearch
import AdventureMachine.Proofs.VaultWalks
import AdventureMachine.Puzzle.Calibration
import AdventureMachine.Puzzle.Coins
import AdventureMachine.Puzzle.Permutation
import AdventureMachine.Puzzle.RoomSearch
import AdventureMachine.Puzzle.Teleporter
import AdventureMachine.Puzzle.Vault
import AdventureMachine.Puzzle.VaultMap
import AdventureMachine.Registers
import AdventureMachine.Room
import AdventureMachine.Shell.Arguments
import AdventureMachine.Shell.Command
import AdventureMachine.Shell.Environment
import AdventureMachine.Shell.FileTree
import AdventureMachine.Shell.Host
import AdventureMachine.Shell.InMemory
import AdventureMachine.Shell.Invocation
import AdventureMachine.Shell.Path
import AdventureMachine.Shell.Solution
import AdventureMachine.Snapshot
import AdventureMachine.Text.Blank
import AdventureMachine.Text.Narrow
import AdventureMachine.Text.Search
import AdventureMachine.Text.Units
import AdventureMachine.Text.Utf8
import AdventureMachine.Transport
import AdventureMachine.Transport.Buffered
import AdventureMachine.Transport.Channel
import AdventureMachine.Transport.Terminal
import AdventureMachine.World
import AdventureMachine.World.Compile
