import Stepwise.Code.Assembly
import Stepwise.Code.Listing
import Stepwise.Debug.Tracer
import Stepwise.Debug.Report
import Stepwise.Json.Reader
import Stepwise.Json.Writer
import Stepwise.Machine.Host
import Stepwise.Source.Grammar
import Stepwise.Text.Newline
import Stepwise.Terminal.Console
import Stepwise.Session.Controller
import Stepwise.Adapter.Frame
import Stepwise.Debug.Wire
import Stepwise.Log.Record
import Stepwise.Settings
import Stepwise.Prompt.Drive
import Stepwise.Adapter.Server
import Stepwise.Program
import Stepwise.Source.Wire
import Stepwise.Session.Wire
import Stepwise.Main
import Stepwise.Proofs.Number.Unsigned
import Stepwise.Proofs.Session.Transparent
import Stepwise.Proofs.Session.Latency
import Stepwise.Proofs.Machine.Faultless
import Stepwise.Proofs.Machine.Handles
import Stepwise.Proofs.Debug.RecordedGallery
import Stepwise.Proofs.Prompt.Drive
import Stepwise.Proofs.Debug.Traceback
import Stepwise.Proofs.Evaluator.Highlight
import Stepwise.Proofs.Source.LineEnds
import Stepwise.Proofs.Session.Statements
import Stepwise.Proofs.Source.Accepted
import Stepwise.Proofs.Source.RoundTrip
import Stepwise.Proofs.Terminal.Cursor
import Stepwise.Proofs.Adapter.Answers
import Stepwise.Proofs.Adapter.Stream
import Stepwise.Proofs.Prompt.Driven
import Stepwise.Proofs.Value.Comparison
import Stepwise.Proofs.Value.Integers
import Stepwise.Proofs.Source.Blocks
import Stepwise.Proofs.Adapter.RelayHistory
import Stepwise.Proofs.Source.Quoted
import Stepwise.Proofs.Terminal.Editing
import Stepwise.Proofs.Terminal.Decoding
import Stepwise.Proofs.Adapter.Origins
import Stepwise.Proofs.Machine.Retired
import Stepwise.Proofs.Machine.EventLog
import Stepwise.Proofs.Debug.SharedGate
import Stepwise.Proofs.Prompt.Commands
import Stepwise.Proofs.Log.Overrides
import Stepwise.Proofs.Debug.Ancestry
import Stepwise.Proofs.Session.Loading
import Stepwise.Proofs.Debug.Caret
import Stepwise.Proofs.Text.Newline
