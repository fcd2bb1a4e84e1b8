import SatModulo.LevelLog
import SatModulo.Theory.Either
import SatModulo.Session
import SatModulo.Output
import SatModulo.Theories.AtMost
import SatModulo.Theories.Reachability
import SatModulo.Theories.RuleTable
import SatModulo.Proofs.Accounts
import SatModulo.Proofs.Accusations
import SatModulo.Proofs.Agreement
import SatModulo.Proofs.Alerts
import SatModulo.Proofs.Amounts
import SatModulo.Proofs.Asserting
import SatModulo.Proofs.BreadthFirst
import SatModulo.Proofs.Cardinality
import SatModulo.Proofs.Ceilings
import SatModulo.Proofs.Conformance
import SatModulo.Proofs.Connectivity
import SatModulo.Proofs.Counting
import SatModulo.Proofs.Delegation
import SatModulo.Proofs.Endings
import SatModulo.Proofs.Entailment
import SatModulo.Proofs.Exactness
import SatModulo.Proofs.Explanations
import SatModulo.Proofs.FirstUip
import SatModulo.Proofs.Fixpoints
import SatModulo.Proofs.Fulfilment
import SatModulo.Proofs.Irredundance
import SatModulo.Proofs.LazyLogs
import SatModulo.Proofs.LazyReasons
import SatModulo.Proofs.Likelihoods
import SatModulo.Proofs.Mirroring
import SatModulo.Proofs.Moments
import SatModulo.Proofs.Overtaking
import SatModulo.Proofs.Permanence
import SatModulo.Proofs.Reaching
import SatModulo.Proofs.Rearrangement
import SatModulo.Proofs.Refutations
import SatModulo.Proofs.RegistrationOrder
import SatModulo.Proofs.Restoration
import SatModulo.Proofs.ReturnLevels
import SatModulo.Proofs.Revisions
import SatModulo.Proofs.Rounding
import SatModulo.Proofs.Rounds
import SatModulo.Proofs.SelfChecks
import SatModulo.Proofs.Shortcuts
import SatModulo.Proofs.Skipping
import SatModulo.Proofs.Storing
import SatModulo.Proofs.Timeline
import SatModulo.Proofs.Verdicts
import SatModulo.Proofs.Witnesses
