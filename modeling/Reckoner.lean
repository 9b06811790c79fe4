import Reckoner.Main
import Reckoner.Proofs.CommandLine.History
import Reckoner.Proofs.CommandLine.Modes
import Reckoner.Proofs.CommandLine.Prompt
import Reckoner.Proofs.Expr.Checking
import Reckoner.Proofs.Expr.Derivation
import Reckoner.Proofs.Expr.Executing
import Reckoner.Proofs.Expr.FirstFault
import Reckoner.Proofs.Expr.Frames
import Reckoner.Proofs.Expr.Levels
import Reckoner.Proofs.Expr.Lockstep
import Reckoner.Proofs.Expr.Parsing
import Reckoner.Proofs.Expr.Written
import Reckoner.Proofs.Number.Digits
import Reckoner.Proofs.Number.Nearest
import Reckoner.Proofs.Number.Rounding
import Reckoner.Proofs.Program.Blame
import Reckoner.Proofs.Program.Bracketing
import Reckoner.Proofs.Program.Composition
import Reckoner.Proofs.Program.Equality
import Reckoner.Proofs.Program.FinalNewline
import Reckoner.Proofs.Program.Formatting
import Reckoner.Proofs.Program.Places
import Reckoner.Proofs.Program.RoundTrip
import Reckoner.Proofs.Program.Signs
import Reckoner.Proofs.Source.Lines
import Reckoner.Proofs.Token.Boundary
import Reckoner.Proofs.Token.Covering
import Reckoner.Proofs.Token.DecimalLiterals
import Reckoner.Proofs.Token.LineNumbers
import Reckoner.Proofs.Token.Numerals
import Reckoner.Proofs.Token.Recovery
import Reckoner.Proofs.Token.Spacing
