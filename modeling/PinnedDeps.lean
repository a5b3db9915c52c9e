import PinnedDeps.Main
import PinnedDeps.Storage.Machine
import PinnedDeps.Proofs.Grammar.Soundness
import PinnedDeps.Proofs.Flatten
import PinnedDeps.Proofs.Evaluation.Printed
import PinnedDeps.Proofs.Evaluation.Ordered
import PinnedDeps.Proofs.Manifest
import PinnedDeps.Proofs.Flatten.Contents
import PinnedDeps.Proofs.Token.Spelling
import PinnedDeps.Proofs.Syntax.Moved
import PinnedDeps.Proofs.Evaluation.Moved
import PinnedDeps.Proofs.Evaluation.Lines
import PinnedDeps.Proofs.Provenance
import PinnedDeps.Proofs.Flatten.Checked
import PinnedDeps.Proofs.Evaluation.Lookups
import PinnedDeps.Proofs.Evaluation.Platform
import PinnedDeps.Proofs.Evaluation.Independence
import PinnedDeps.Proofs.Flatten.Independence
import PinnedDeps.Proofs.Evaluation.Layout
import PinnedDeps.Proofs.Evaluation.Deepest
import PinnedDeps.Proofs.Flatten.Again
import PinnedDeps.Proofs.Token.LineEndings
import PinnedDeps.Proofs.Grammar.Beginnings
import PinnedDeps.Proofs.Token.Escapes
import PinnedDeps.Proofs.Token.Extent
import PinnedDeps.Proofs.Token.Shape
import PinnedDeps.Proofs.Syntax.Depths
import PinnedDeps.Proofs.Token.Passages
import PinnedDeps.Proofs.Evaluation.Refusals
import PinnedDeps.Proofs.Evaluation.Height
import PinnedDeps.Proofs.Syntax.Termination
import PinnedDeps.Proofs.Evaluation.Grouping
import PinnedDeps.Proofs.CommitNote
import PinnedDeps.Proofs.Flatten.Noted
import PinnedDeps.Proofs.CommitNote.Lines
import PinnedDeps.Proofs.Manifest.Json
import PinnedDeps.Proofs.Token.Integers
import PinnedDeps.Proofs.CommandLine
import PinnedDeps.Proofs.Report
import PinnedDeps.Proofs.Storage.Atomicity
import PinnedDeps.Proofs.Token.Codes
