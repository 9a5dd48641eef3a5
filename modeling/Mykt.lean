import Mykt.Main
import Mykt.Proofs.Analysis.Refusal
import Mykt.Proofs.Command.Agreement
import Mykt.Proofs.Declaration.Attempt
import Mykt.Proofs.Definition.Declaring
import Mykt.Proofs.Definition.Provenance
import Mykt.Proofs.Grammar.Layout
import Mykt.Proofs.Grammar.Semicolon
import Mykt.Proofs.Import.Confinement
import Mykt.Proofs.Import.Once
import Mykt.Proofs.Import.Permutation
import Mykt.Proofs.Scope.Extent
import Mykt.Proofs.Scope.Traversal
import Mykt.Proofs.Server.EditorPosition
import Mykt.Proofs.Text.Occurrence
import Mykt.Proofs.Token.LineEnds
import Mykt.Proofs.Tree.Linked
