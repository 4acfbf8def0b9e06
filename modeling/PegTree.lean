import PegTree.Main
import PegTree.Proofs.Tree.WellFormed
import PegTree.Proofs.Notation.Exactness
import PegTree.Proofs.Parser.Termination
import PegTree.Proofs.Parser.Entries
import PegTree.Proofs.Parser.Failure
import PegTree.Proofs.Tree.Subtree
import PegTree.Proofs.Parser.Validation
import PegTree.Proofs.Parser.Limit
import PegTree.Proofs.Parser.Order
import PegTree.Proofs.Parser.EndRule
import PegTree.Proofs.Match.Nullable
import PegTree.Proofs.Notation.ReportedCycle
import PegTree.Proofs.Command.Batch
import PegTree.Proofs.Parser.Slices
import PegTree.Proofs.Parser.Grouping
import PegTree.Proofs.Parser.Adjacency
import PegTree.Proofs.Tree.Lossless
import PegTree.Proofs.Parser.NumberList
import PegTree.Proofs.Notation.Labels
import PegTree.Proofs.Tree.Outline
import PegTree.Proofs.Tree.Json
import PegTree.Proofs.Terminal.Display
import PegTree.Proofs.Text.Location
import PegTree.Proofs.Files.Reading
import PegTree.Proofs.Files.Discovery
import PegTree.Proofs.Command.JsonLines
import PegTree.Proofs.Grammar.Fixpoint
import PegTree.Proofs.Match.Leading
import PegTree.Proofs.Tree.Walk
