import MacroMachine.Context
import MacroMachine.Demo
import MacroMachine.Entries
import MacroMachine.Fault
import MacroMachine.Machine.Calls
import MacroMachine.Machine.Elements
import MacroMachine.Machine.Execution
import MacroMachine.Machine.Operators
import MacroMachine.Machine.Run
import MacroMachine.Machine.Step
import MacroMachine.Machine.Variables
import MacroMachine.Main
import MacroMachine.Native
import MacroMachine.Native.Script
import MacroMachine.Opcode
import MacroMachine.Program
import MacroMachine.Program.Assembler
import MacroMachine.Program.Draft
import MacroMachine.Program.Image
import MacroMachine.Program.Listing
import MacroMachine.Proofs.Activations
import MacroMachine.Proofs.Aliasing
import MacroMachine.Proofs.ArgumentAccess
import MacroMachine.Proofs.ArgumentArrays
import MacroMachine.Proofs.ArrayAlgebra
import MacroMachine.Proofs.Balance
import MacroMachine.Proofs.BlockSwaps
import MacroMachine.Proofs.Branches
import MacroMachine.Proofs.Budget
import MacroMachine.Proofs.ByteOrder
import MacroMachine.Proofs.CompoundAssignment
import MacroMachine.Proofs.ControlFlow
import MacroMachine.Proofs.DemoAssembly
import MacroMachine.Proofs.Discipline
import MacroMachine.Proofs.DrainedArrays
import MacroMachine.Proofs.Effects
import MacroMachine.Proofs.EnteredPrograms
import MacroMachine.Proofs.FloatingPower
import MacroMachine.Proofs.Footprint
import MacroMachine.Proofs.FrameRuns
import MacroMachine.Proofs.Frames
import MacroMachine.Proofs.Fuel
import MacroMachine.Proofs.ImageReading
import MacroMachine.Proofs.Images
import MacroMachine.Proofs.IndexTuples
import MacroMachine.Proofs.InjectedResults
import MacroMachine.Proofs.Instructions
import MacroMachine.Proofs.Interference
import MacroMachine.Proofs.Iteration
import MacroMachine.Proofs.Likeness
import MacroMachine.Proofs.ListedJumps
import MacroMachine.Proofs.LiveFrames
import MacroMachine.Proofs.LocalLayout
import MacroMachine.Proofs.LocalVariables
import MacroMachine.Proofs.Locals
import MacroMachine.Proofs.Looking
import MacroMachine.Proofs.Mirroring
import MacroMachine.Proofs.NumeralGrammar
import MacroMachine.Proofs.OperandLayout
import MacroMachine.Proofs.Operands
import MacroMachine.Proofs.Operations
import MacroMachine.Proofs.Operators
import MacroMachine.Proofs.OrderedMaps
import MacroMachine.Proofs.RangeSums
import MacroMachine.Proofs.Retention
import MacroMachine.Proofs.Routines
import MacroMachine.Proofs.Runs
import MacroMachine.Proofs.Scopes
import MacroMachine.Proofs.SetOperators
import MacroMachine.Proofs.StackBound
import MacroMachine.Proofs.Staging
import MacroMachine.Proofs.SymbolReads
import MacroMachine.Proofs.TextConstants
import MacroMachine.Proofs.Turns
import MacroMachine.Proofs.Twins
import MacroMachine.Proofs.ValueEquality
import MacroMachine.Proofs.VariableWrites
import MacroMachine.Store
import MacroMachine.SymbolTable
import MacroMachine.Text.CharClass
import MacroMachine.Text.Layout
import MacroMachine.Text.Numeral
import MacroMachine.Text.Quoted
import MacroMachine.Value
import MacroMachine.Value.Describe
import MacroMachine.Value.Equality
import MacroMachine.Value.Literal
import MacroMachine.World
