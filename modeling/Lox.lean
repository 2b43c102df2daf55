import Lox.Main
import Lox.Proofs.Alike.Derivations
import Lox.Proofs.Alike.Recast
import Lox.Proofs.Alike.Relabelling
import Lox.Proofs.Alike.Scopes
import Lox.Proofs.Alike.Steps
import Lox.Proofs.Grammar.Acceptance
import Lox.Proofs.Machine.Agreement
import Lox.Proofs.Machine.Restoration
import Lox.Proofs.Session.Rejection
import Lox.Proofs.Session.Joining
import Lox.Proofs.Token.Rewording
import Lox.Proofs.Token.Respacing
import Lox.Proofs.Alike.Renaming
import Lox.Proofs.Session.Renaming
import Lox.Proofs.Machine.Chains
import Lox.Proofs.Machine.Turns
import Lox.Proofs.Machine.References
import Lox.Proofs.Machine.Origins
import Lox.Proofs.Session.Dispatch
import Lox.Proofs.Session.Identities
import Lox.Proofs.Scope.Distances
import Lox.Proofs.Machine.Frames
import Lox.Proofs.Session.Foundation
import Lox.Proofs.Machine.LoopFree
import Lox.Proofs.Machine.Output
import Lox.Proofs.Machine.Termination
import Lox.Proofs.Session.Termination
import Lox.Proofs.Session.Truncation
import Lox.Proofs.Grammar.Semicolons
import Lox.Proofs.Grammar.Recovery
import Lox.Proofs.Grammar.Tolerance
import Lox.Proofs.Grammar.Progress
import Lox.Proofs.Session.Returns
import Lox.Proofs.Grammar.Omission
import Lox.Proofs.Machine.Calls
import Lox.Proofs.Machine.Initializers
import Lox.Proofs.Session.Initializers
import Lox.Proofs.Session.Bracing
import Lox.Proofs.Session.Loops
import Lox.Proofs.Machine.Shadowing
import Lox.Proofs.Session.Regularity
import Lox.Proofs.Numeral.RoundTrip
import Lox.Proofs.Tree.Unambiguity
import Lox.Proofs.Token.InPlace
