import ByteTape.CommandLine.Session
import ByteTape.FileTree
import ByteTape.Main
import ByteTape.Proofs.Bracket.Duality
import ByteTape.Proofs.Bracket.FirstReturn
import ByteTape.Proofs.Bracket.Height
import ByteTape.Proofs.Bracket.LimitedMemo
import ByteTape.Proofs.Bracket.Memo
import ByteTape.Proofs.Bracket.Pairing
import ByteTape.Proofs.CommandLine.Session
import ByteTape.Proofs.Comments.Inertness
import ByteTape.Proofs.Config.Layout
import ByteTape.Proofs.Config.Lines
import ByteTape.Proofs.Config.MaxSteps
import ByteTape.Proofs.Config.Meaning
import ByteTape.Proofs.Config.Settings
import ByteTape.Proofs.Diagnostic.Geometry
import ByteTape.Proofs.Diagnostic.Window
import ByteTape.Proofs.Ideal.Machine
import ByteTape.Proofs.Ideal.Refinement
import ByteTape.Proofs.Machine.Atomicity
import ByteTape.Proofs.Machine.Buffered
import ByteTape.Proofs.Machine.Cancellation
import ByteTape.Proofs.Machine.Copying
import ByteTape.Proofs.Machine.Failure
import ByteTape.Proofs.Machine.Flushes
import ByteTape.Proofs.Machine.FullTable
import ByteTape.Proofs.Machine.History
import ByteTape.Proofs.Machine.InputEvents
import ByteTape.Proofs.Machine.LimitedTable
import ByteTape.Proofs.Machine.Localisation
import ByteTape.Proofs.Machine.Moments
import ByteTape.Proofs.Machine.Narration
import ByteTape.Proofs.Machine.OutputFaults
import ByteTape.Proofs.Machine.Past
import ByteTape.Proofs.Machine.Remembered
import ByteTape.Proofs.Machine.Rerun
import ByteTape.Proofs.Machine.Retracing
import ByteTape.Proofs.Machine.Safety
import ByteTape.Proofs.Machine.Scanning
import ByteTape.Proofs.Machine.Step
import ByteTape.Proofs.Machine.StepLimit
import ByteTape.Proofs.Machine.Strides
import ByteTape.Proofs.Machine.Table
import ByteTape.Proofs.Machine.TableFaults
import ByteTape.Proofs.Machine.Traffic
import ByteTape.Proofs.Machine.Transcription
import ByteTape.Proofs.Machine.Untraced
import ByteTape.Proofs.Program.Loading
import ByteTape.Proofs.Stream.Account
import ByteTape.Proofs.Stream.Events
import ByteTape.Proofs.Stream.Transcript
import ByteTape.Proofs.Stream.Unfailing
import ByteTape.Proofs.Structured.Agreement
import ByteTape.Proofs.Structured.Semantics
import ByteTape.Proofs.Structured.Simulation
import ByteTape.Proofs.Structured.Straight
import ByteTape.Proofs.Structured.Syntax
import ByteTape.Proofs.Structured.View
import ByteTape.Proofs.Text.Encoding
import ByteTape.Proofs.Text.Numeral
import ByteTape.Proofs.Text.Reading
import ByteTape.Proofs.Text.Slice
import ByteTape.Proofs.Text.Trim
import ByteTape.Proofs.Trace.Lossless
