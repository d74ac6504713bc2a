import Lox.Main
import Lox.Proofs.Parser.Moves
import Lox.Proofs.Parser.Statement
import Lox.Proofs.Acceptance
import Lox.Proofs.Content
import Lox.Proofs.Lexical
import Lox.Proofs.Encoding
import Lox.Proofs.Rendering
import Lox.Proofs.Evaluation
import Lox.Proofs.Frame
import Lox.Proofs.Simulation
import Lox.Proofs.Height
import Lox.Proofs.Execution
import Lox.Proofs.Refinement
import Lox.Proofs.Safety
import Lox.Proofs.Effect
import Lox.Proofs.Transparency
import Lox.Proofs.Uses
import Lox.Proofs.Footprint
import Lox.Proofs.Noninterference
import Lox.Proofs.Joining
import Lox.Proofs.Lines
import Lox.Proofs.Relocation
import Lox.Proofs.Sequence
import Lox.Proofs.Printing
import Lox.Proofs.Handles
import Lox.Proofs.Listing
import Lox.Proofs.Decoding
import Lox.Proofs.Atomicity
import Lox.Proofs.Blame
import Lox.Proofs.Completion
import Lox.Proofs.Location
import Lox.Proofs.LongestMatch
import Lox.Proofs.Position
import Lox.Proofs.Layout
import Lox.Proofs.Pool
import Lox.Proofs.Prompt
import Lox.Proofs.Viability
import Lox.Proofs.Parser.Ahead
import Lox.Proofs.Parser.Lockstep
import Lox.Proofs.Parser.Tracking
import Lox.Proofs.Diagnosis
import Lox.Proofs.Shape
import Lox.Proofs.Parser.Below
import Lox.Proofs.Parser.Hushed
import Lox.Proofs.Parser.Crossing
import Lox.Proofs.Recovery
import Lox.Proofs.Compiler
import Lox.Proofs.Compiler.Clock
import Lox.Proofs.Compiler.Expression
import Lox.Proofs.Compiler.Program
import Lox.Proofs.Termination
import Lox.Proofs.Rescanning
import Lox.Proofs.History
import Lox.Proofs.Codec
import Lox.Proofs.ListedLines
import Lox.Proofs.Field
import Lox.Proofs.Draft
