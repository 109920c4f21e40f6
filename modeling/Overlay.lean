import Overlay.Main
import Overlay.Proofs.Feature.History
import Overlay.Proofs.Feature.Precedence
import Overlay.Proofs.Interface.Stream
import Overlay.Proofs.Interface.Renumbering
import Overlay.Proofs.Interface.Exchange
import Overlay.Proofs.Interface.Isolation
import Overlay.Proofs.Feature.Revision
import Overlay.Proofs.Interface.Overridden
import Overlay.Proofs.ScopeGraph.Ascent
import Overlay.Proofs.Interface.LateGlobal
import Overlay.Proofs.Feature.OwnScope
import Overlay.Proofs.Text.Extension
import Overlay.Proofs.Script.Success
import Overlay.Proofs.Script.Composition
import Overlay.Proofs.Script.Roundtrip
import Overlay.Proofs.Checked.Slice
import Overlay.Proofs.Checked.Scan
import Overlay.Proofs.Checked.Matching
import Overlay.Proofs.Checked.Name
import Overlay.Proofs.Checked.Parameter
import Overlay.Proofs.Checked.Statement
import Overlay.Proofs.Checked.Directive
import Overlay.Proofs.Checked.Reader
import Overlay.Proofs.Checked.Table
import Overlay.Proofs.Checked.Interface
import Overlay.Proofs.Checked.Safety
import Overlay.Proofs.Text.Words
import Overlay.Proofs.Text.Cuts
import Overlay.Proofs.Name.Operator
import Overlay.Proofs.Name.Segments
import Overlay.Proofs.CType.Tokens
import Overlay.Proofs.Parameter.Readback
import Overlay.Proofs.Script.Phrases
import Overlay.Proofs.Script.OneStatement
import Overlay.Proofs.Script.Declared
import Overlay.Proofs.Script.LostTerminator
import Overlay.Proofs.Script.OwnText
import Overlay.Proofs.Pattern.Displayed
import Overlay.Proofs.Variant.Numbering
import Overlay.Proofs.FactSheet.WrapperName
import Overlay.Proofs.Interface.Emission
import Overlay.Proofs.Pattern.Propagation
import Overlay.Proofs.Template.Expansion
import Overlay.Proofs.Text.ByteOrder
import Overlay.Proofs.Interface.Answers
import Overlay.Proofs.Interface.Views
import Overlay.Proofs.Script.Expanded
import Overlay.Proofs.Text.Gaps
import Overlay.Proofs.Text.Brackets
import Overlay.Proofs.CType.NormalForm
import Overlay.Proofs.CType.Qualifiers
import Overlay.Proofs.Parameter.Defaults
import Overlay.Proofs.Parameter.Names
import Overlay.Proofs.CommandLine.JoinedValue
import Overlay.Proofs.Name.FirstList
import Overlay.Proofs.Script.Literals
import Overlay.Proofs.Script.ArgumentList
