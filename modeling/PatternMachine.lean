import PatternMachine.CommandLine.Run
import PatternMachine.Main
import PatternMachine.Search.IsMatch
import PatternMachine.Proofs.Anchoring
import PatternMachine.Proofs.Safety
import PatternMachine.Proofs.Labels
import PatternMachine.Proofs.Acceptance
import PatternMachine.Proofs.Undoing
import PatternMachine.Proofs.Grouping
import PatternMachine.Proofs.Grammar
import PatternMachine.Proofs.Spelling
import PatternMachine.Proofs.Scanning
import PatternMachine.Proofs.Merging
import PatternMachine.Proofs.Reading
import PatternMachine.Proofs.Parsing
import PatternMachine.Proofs.Preference
import PatternMachine.Proofs.Suspending
import PatternMachine.Proofs.Readings
import PatternMachine.Proofs.Ending
import PatternMachine.Proofs.Relocating
import PatternMachine.Proofs.Tracing
import PatternMachine.Proofs.Escaping
import PatternMachine.Proofs.Dialects
import PatternMachine.Proofs.Occurrences
import PatternMachine.Proofs.Pending
import PatternMachine.Proofs.Lines
import PatternMachine.Proofs.Rendering
import PatternMachine.Proofs.Emptiness
import PatternMachine.Proofs.Uncapturing
import PatternMachine.Proofs.Widening
import PatternMachine.Proofs.Apart
import PatternMachine.Proofs.Layout
import PatternMachine.Proofs.Resuming
import PatternMachine.Proofs.Quoting
import PatternMachine.Proofs.Legible
import PatternMachine.Proofs.Jumps
import PatternMachine.Proofs.Counters
