import StackForest.Main
import StackForest.Instruction.Edit
import StackForest.Proofs.Matching
import StackForest.Proofs.Descent
import StackForest.Proofs.Visits
import StackForest.Proofs.Concatenation
import StackForest.Proofs.Concise.RoundTrip
import StackForest.Proofs.Concise.Grammar
import StackForest.Proofs.Unterminated
import StackForest.Proofs.Analysis
import StackForest.Proofs.Agreement
import StackForest.Proofs.Shortage
import StackForest.Proofs.Concise.File
import StackForest.Proofs.CommandLine.Step
import StackForest.Proofs.Graph
import StackForest.Proofs.Illegible
import StackForest.Proofs.CommandLine.Ends
import StackForest.Proofs.Concise.Fault
import StackForest.Proofs.Nodes
import StackForest.Proofs.Equality.Program
import StackForest.Proofs.Graph.Text
import StackForest.Proofs.Graph.Shape
import StackForest.Proofs.Definitions
import StackForest.Proofs.Concise.Pattern
import StackForest.Proofs.Frames
import StackForest.Proofs.Files.Writes
import StackForest.Proofs.CommandLine.Effects
import StackForest.Proofs.Number.Grammar
import StackForest.Proofs.Concise.NumberPattern
