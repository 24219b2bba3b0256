import ScriptLexer.Diagnostic.Hub
import ScriptLexer.Proofs.Blanking
import ScriptLexer.Proofs.CommentScan
import ScriptLexer.Proofs.DecimalRendering
import ScriptLexer.Proofs.ErrorLog
import ScriptLexer.Proofs.Fragments
import ScriptLexer.Proofs.History
import ScriptLexer.Proofs.LineEndings
import ScriptLexer.Proofs.Lines
import ScriptLexer.Proofs.Listing
import ScriptLexer.Proofs.LogPrefix
import ScriptLexer.Proofs.MaximalMunch
import ScriptLexer.Proofs.NearestNumber
import ScriptLexer.Proofs.PrefixStability
import ScriptLexer.Proofs.Rereading
import ScriptLexer.Proofs.Safety
import ScriptLexer.Proofs.Simulation
import ScriptLexer.Proofs.TerminalDisplay
import ScriptLexer.Proofs.TypedDecimal
