import ShellReader.Cursor
import ShellReader.Event
import ShellReader.Fault
import ShellReader.Highlight
import ShellReader.Index
import ShellReader.Machine.Basic
import ShellReader.Machine.Lemmas
import ShellReader.Machine.Run
import ShellReader.Main
import ShellReader.Parse
import ShellReader.Production.Basic
import ShellReader.Production.Build
import ShellReader.Production.Progress
import ShellReader.Production.Respond
import ShellReader.Program
import ShellReader.Proofs.Acceptance
import ShellReader.Proofs.Canonical
import ShellReader.Proofs.CommandNames
import ShellReader.Proofs.CommandPhase
import ShellReader.Proofs.Coverage
import ShellReader.Proofs.Depth
import ShellReader.Proofs.Descent
import ShellReader.Proofs.Driving
import ShellReader.Proofs.Dumping
import ShellReader.Proofs.Ending
import ShellReader.Proofs.Escaping
import ShellReader.Proofs.Essence
import ShellReader.Proofs.Exact
import ShellReader.Proofs.Faults
import ShellReader.Proofs.Formation
import ShellReader.Proofs.Front
import ShellReader.Proofs.Height
import ShellReader.Proofs.Kinds
import ShellReader.Proofs.Lexical
import ShellReader.Proofs.Likeness
import ShellReader.Proofs.Limit
import ShellReader.Proofs.Lookahead
import ShellReader.Proofs.Marking
import ShellReader.Proofs.Moves
import ShellReader.Proofs.Numbering
import ShellReader.Proofs.Offsets
import ShellReader.Proofs.Painting
import ShellReader.Proofs.Parallel
import ShellReader.Proofs.Phase
import ShellReader.Proofs.Precedence
import ShellReader.Proofs.Provenance
import ShellReader.Proofs.Quoting
import ShellReader.Proofs.Recursion
import ShellReader.Proofs.Refinement
import ShellReader.Proofs.Reprint
import ShellReader.Proofs.RoundTrip
import ShellReader.Proofs.Sequencing
import ShellReader.Proofs.Sessions
import ShellReader.Proofs.Shape
import ShellReader.Proofs.Shifting
import ShellReader.Proofs.SideBySide
import ShellReader.Proofs.Spacing
import ShellReader.Proofs.Stopping
import ShellReader.Proofs.StringEnd
import ShellReader.Proofs.Termination
import ShellReader.Proofs.Trace
import ShellReader.Proofs.Walk
import ShellReader.Script
import ShellReader.Settings
import ShellReader.Text.Basic
import ShellReader.Text.Blank
import ShellReader.Text.DecimalDigit
import ShellReader.Text.Line
import ShellReader.Text.Numeral
import ShellReader.Text.Printable
import ShellReader.Text.Quoted
import ShellReader.Token.Basic
import ShellReader.Token.Scanner
import ShellReader.Token.Session
import ShellReader.Tree.Basic
import ShellReader.Tree.Dump
import ShellReader.Tree.Outline
import ShellReader.Tree.Source
