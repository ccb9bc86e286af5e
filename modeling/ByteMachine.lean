import ByteMachine.Main
import ByteMachine.Proofs.Utf8
import ByteMachine.Proofs.Streams
import ByteMachine.Proofs.Framing
import ByteMachine.Proofs.ModuleFile
import ByteMachine.Proofs.Placement
import ByteMachine.Proofs.Passes
import ByteMachine.Proofs.FlatMachine
import ByteMachine.Proofs.Refinement
import ByteMachine.Proofs.Program
import ByteMachine.Proofs.ControlFlow
import ByteMachine.Proofs.History
import ByteMachine.Proofs.Readers
import ByteMachine.Proofs.FileGrammar
import ByteMachine.Proofs.PartialFile
import ByteMachine.Proofs.Reencoding
import ByteMachine.Proofs.OrderlyReaders
import ByteMachine.Proofs.Loading
import ByteMachine.Proofs.HostSteps
import ByteMachine.Proofs.StepLimits
import ByteMachine.Proofs.Numerals
import ByteMachine.Proofs.Scanning
import ByteMachine.Proofs.InstructionText
import ByteMachine.Proofs.Disassembly
import ByteMachine.Proofs.OutputLimits
import ByteMachine.Proofs.Exports
import ByteMachine.Proofs.Pipeline
import ByteMachine.Proofs.Scopes
import ByteMachine.Proofs.Outline
import ByteMachine.Proofs.Lockstep
import ByteMachine.Proofs.Widening
import ByteMachine.Proofs.FailingSteps
import ByteMachine.Proofs.Decoding
import ByteMachine.Proofs.DataDirectives
import ByteMachine.Proofs.StartSymbols
import ByteMachine.Proofs.Lookahead
import ByteMachine.Proofs.Tokens
import ByteMachine.Proofs.Parsing
import ByteMachine.Proofs.Dressing
import ByteMachine.Proofs.Saving
import ByteMachine.Proofs.Diagnosis
import ByteMachine.Proofs.StatementGrammar
import ByteMachine.Proofs.StackOperations
import ByteMachine.Proofs.KernelCalls
import ByteMachine.Proofs.FramedSequences
import ByteMachine.Proofs.AddressingModes
import ByteMachine.Proofs.JumpFree
import ByteMachine.Proofs.IndependentRuns
import ByteMachine.Proofs.Addresses
import ByteMachine.Proofs.NumeralGrammar
import ByteMachine.Proofs.PrefixRuns
import ByteMachine.Proofs.Truncation
import ByteMachine.Proofs.ScanErrors
