import Pseudocode.Main
import Pseudocode.Proofs.Conversion
import Pseudocode.Proofs.Render.Reread
import Pseudocode.Proofs.Source.Recovery
import Pseudocode.Proofs.Loop.Striding
import Pseudocode.Proofs.Layout
import Pseudocode.Proofs.Conversion.NormalForm
import Pseudocode.Proofs.Reader.Cursor
import Pseudocode.Proofs.Reader.Sentences
import Pseudocode.Proofs.Token.Literals
import Pseudocode.Proofs.Token.Coverage
import Pseudocode.Proofs.Token.Grammar
import Pseudocode.Proofs.Conversion.Styles
import Pseudocode.Proofs.Reader.Derivation
import Pseudocode.Proofs.Program.Parts
import Pseudocode.Proofs.Scope.Words
import Pseudocode.Proofs.Scope.Names
import Pseudocode.Proofs.Reader.Comparisons
import Pseudocode.Proofs.Scope.Generics
import Pseudocode.Proofs.Command.Delivery
import Pseudocode.Proofs.Source.Comments
import Pseudocode.Proofs.Reader.Append
import Pseudocode.Proofs.Loop.Headers
import Pseudocode.Proofs.Reader.Lookahead
import Pseudocode.Proofs.Reader.Nesting
import Pseudocode.Proofs.Render.Concatenation
import Pseudocode.Proofs.Conversion.Signs
import Pseudocode.Proofs.Render.Blocks
import Pseudocode.Proofs.Scope.Meaning
import Pseudocode.Proofs.Render.Negation
import Pseudocode.Proofs.Program.Removal
import Pseudocode.Proofs.Reader.Order
import Pseudocode.Proofs.Render.Removal
import Pseudocode.Proofs.Source.Verbatim
import Pseudocode.Proofs.Reader.Types
import Pseudocode.Proofs.Reader.Targets
import Pseudocode.Proofs.Render.Operands
import Pseudocode.Proofs.Source.Column
import Pseudocode.Proofs.Token.Respacing
import Pseudocode.Proofs.Command.Arguments
import Pseudocode.Proofs.Render.Formula
