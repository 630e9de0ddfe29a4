import Sentential.CommandLine.Run
import Sentential.Main
import Sentential.Proofs.CommandLine.Deriving
import Sentential.Proofs.CommandLine.Frame
import Sentential.Proofs.CommandLine.GrammarRun
import Sentential.Proofs.CommandLine.Removals
import Sentential.Proofs.Controller.Autosave
import Sentential.Proofs.Controller.Clearing
import Sentential.Proofs.Derivation.Encoded
import Sentential.Proofs.Derivation.Offers
import Sentential.Proofs.Derivation.Ordinals
import Sentential.Proofs.Derivation.Replay
import Sentential.Proofs.Display.Chain
import Sentential.Proofs.Document.Acceptance
import Sentential.Proofs.Fingerprint.Identity
import Sentential.Proofs.Grammar.Rejection
import Sentential.Proofs.Grammar.Saving
import Sentential.Proofs.Grammar.Validation
import Sentential.Proofs.History.Names
import Sentential.Proofs.History.Stack
import Sentential.Proofs.Session.Consistency
import Sentential.Proofs.Session.Journal
import Sentential.Proofs.Session.Keys
