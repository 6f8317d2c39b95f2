import Machine86.Files.Tree
import Machine86.Main
import Machine86.Run.Finish
import Machine86.Proofs.Encoding
import Machine86.Proofs.RoundTrip
import Machine86.Proofs.Performed
import Machine86.Proofs.Loaded
import Machine86.Proofs.LinearSweep
import Machine86.Proofs.Branches
import Machine86.Proofs.PrefixFree
import Machine86.Proofs.Texts
import Machine86.Proofs.Wording
import Machine86.Proofs.Replay
import Machine86.Proofs.CheckedListing
import Machine86.Proofs.Lines
import Machine86.Proofs.Pieces
import Machine86.Proofs.Reachable
import Machine86.Proofs.StepLimit
import Machine86.Proofs.Padding
import Machine86.Proofs.Footprint
import Machine86.Proofs.Untraced
import Machine86.Proofs.Recurrence
import Machine86.Proofs.ErrorText
import Machine86.Proofs.Reported
import Machine86.Proofs.JsonText
import Machine86.Proofs.DataForms
import Machine86.Proofs.TraceText
import Machine86.Proofs.Rendering
import Machine86.Proofs.Places
import Machine86.Proofs.Selected
import Machine86.Proofs.CommandLine
import Machine86.Proofs.Course
import Machine86.Proofs.Endings
import Machine86.Proofs.Brackets
import Machine86.Proofs.ByteFlags
import Machine86.Proofs.Stops
import Machine86.Proofs.JumpTarget
import Machine86.Proofs.LastResult
import Machine86.Proofs.CheckOutcome
import Machine86.Proofs.Lookups
import Machine86.Proofs.Cursor
import Machine86.Proofs.Bounds
import Machine86.Proofs.Aliasing
import Machine86.Proofs.Consumed
