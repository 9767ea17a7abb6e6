import PvsIndex.Diagnostic.Audience
import PvsIndex.Diagnostic.Collector
import PvsIndex.Main
import PvsIndex.Proofs.Checked.Nameless
import PvsIndex.Proofs.Checked.Progress
import PvsIndex.Proofs.Composition
import PvsIndex.Proofs.Declaration.Capture
import PvsIndex.Proofs.Diagnostic.Sharing
import PvsIndex.Proofs.Grammar.FirstError
import PvsIndex.Proofs.Grammar.Formulas
import PvsIndex.Proofs.Grammar.Reports
import PvsIndex.Proofs.Likeness
import PvsIndex.Proofs.Lsp.Framing
import PvsIndex.Proofs.Lsp.Limits
import PvsIndex.Proofs.Lsp.Traces
import PvsIndex.Proofs.Source.Conversion
import PvsIndex.Proofs.Source.Monoid
import PvsIndex.Proofs.Token.Local
import PvsIndex.Tree.Outline
