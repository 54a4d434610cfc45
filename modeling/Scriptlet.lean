import Scriptlet.Main
import Scriptlet.Token.Reader
import Scriptlet.Proofs.Syntax.RoundTrip
import Scriptlet.Proofs.Grammar.Complete
import Scriptlet.Proofs.Eval.Abort
import Scriptlet.Proofs.Eval.Frame
import Scriptlet.Proofs.Parser.Composition
import Scriptlet.Proofs.Parser.Depth
import Scriptlet.Proofs.Parser.Braces
import Scriptlet.Proofs.Parser.Lockstep
import Scriptlet.Proofs.Parser.Append
import Scriptlet.Proofs.Eval.Limits
import Scriptlet.Proofs.Eval.Visits
import Scriptlet.Proofs.Eval.Returns
import Scriptlet.Proofs.Eval.Discipline
import Scriptlet.Proofs.Parser.Correspondence
import Scriptlet.Proofs.Parser.Leaves
import Scriptlet.Proofs.Eval.Soundness
import Scriptlet.Proofs.Eval.Image
import Scriptlet.Proofs.Eval.Repeat
import Scriptlet.Proofs.Eval.Match
import Scriptlet.Proofs.Eval.Lexical
import Scriptlet.Proofs.Token.Lines
import Scriptlet.Proofs.Parser.Sequence
import Scriptlet.Proofs.Eval.Concatenation
import Scriptlet.Proofs.Eval.EarlyExit
import Scriptlet.Proofs.Parser.Imprints
import Scriptlet.Proofs.Eval.Layout
import Scriptlet.Proofs.Parser.Rendering
import Scriptlet.Proofs.Token.Stepwise
import Scriptlet.Proofs.Token.Tiling
import Scriptlet.Proofs.Session.Delimiters
import Scriptlet.Proofs.Session.Input
import Scriptlet.Proofs.Command.Safety
import Scriptlet.Proofs.Parser.Height
import Scriptlet.Proofs.Eval.Room
import Scriptlet.Proofs.Parser.Congruence
import Scriptlet.Proofs.Parser.Counters
import Scriptlet.Proofs.Parser.Operators
import Scriptlet.Proofs.Json.Members
import Scriptlet.Proofs.Json.Reader
import Scriptlet.Proofs.Text.Utf8
import Scriptlet.Proofs.Settings.Layers
import Scriptlet.Proofs.Settings.Load
import Scriptlet.Proofs.Command.Configuration
import Scriptlet.Proofs.Eval.Counters
import Scriptlet.Proofs.Parser.Trace
import Scriptlet.Proofs.Parser.Footing
import Scriptlet.Proofs.Parser.Order
import Scriptlet.Proofs.Parser.Nesting
import Scriptlet.Proofs.Session.Literals
import Scriptlet.Proofs.Token.Spaced
import Scriptlet.Proofs.Word.Arithmetic
import Scriptlet.Proofs.Settings.Validation
import Scriptlet.Proofs.Eval.Visibility
