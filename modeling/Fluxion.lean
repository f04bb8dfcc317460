import Fluxion.Expr.Variables
import Fluxion.Journal
import Fluxion.Main
import Fluxion.Proofs.Calculus
import Fluxion.Proofs.Closeness
import Fluxion.Proofs.Coefficients
import Fluxion.Proofs.Composition
import Fluxion.Proofs.Disguise
import Fluxion.Proofs.Exchange
import Fluxion.Proofs.Existence
import Fluxion.Proofs.Inline.Build
import Fluxion.Proofs.Inline.Lossless
import Fluxion.Proofs.Leftovers
import Fluxion.Proofs.LineByLine
import Fluxion.Proofs.Names
import Fluxion.Proofs.NegatedPower
import Fluxion.Proofs.Rebuilding
import Fluxion.Proofs.Refusal
import Fluxion.Proofs.Sessions
import Fluxion.Proofs.Starred
import Fluxion.Proofs.Strictness
import Fluxion.Proofs.Terms
import Fluxion.Proofs.Tidying
import Fluxion.Proofs.Tolerance
import Fluxion.Workbench
