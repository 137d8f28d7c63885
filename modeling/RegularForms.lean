import RegularForms.Main
import RegularForms.Proofs.Conversion
import RegularForms.Proofs.Determinization.Complete
import RegularForms.Proofs.Elimination.Complete
import RegularForms.Proofs.Expansion.Complete
import RegularForms.Proofs.Expr.Normal
import RegularForms.Proofs.Expr.RoundTrip
import RegularForms.Proofs.Replay
import RegularForms.Proofs.Expr.Blank
import RegularForms.Proofs.Expr.Grammar
import RegularForms.Proofs.Expr.Recognition
import RegularForms.Proofs.Automaton.Ledger
import RegularForms.Proofs.Rollback
import RegularForms.Proofs.Edit.Reversal
import RegularForms.Proofs.Determinization.Fixpoint
import RegularForms.Proofs.Determinization.Undoing
import RegularForms.Proofs.CommandLine.Run
import RegularForms.Proofs.Automaton.Aspect
import RegularForms.Proofs.Edit.Retention
import RegularForms.Proofs.Retry
import RegularForms.Proofs.Determinization.Merging
import RegularForms.Proofs.Determinization.Rounds
import RegularForms.Proofs.Mirror
import RegularForms.Proofs.Elimination.Alone
import RegularForms.Proofs.Planned
import RegularForms.Proofs.Completion
import RegularForms.Proofs.Automaton.Walk
import RegularForms.Proofs.Expr.Redundancy
import RegularForms.Proofs.Expr.Shrinking
import RegularForms.Proofs.Expr.Shortest
import RegularForms.Proofs.Expr.Defect
import RegularForms.Proofs.Determinization.Classes
import RegularForms.Proofs.Determinization.Retaining
import RegularForms.Proofs.Restriction
import RegularForms.Proofs.Copy
import RegularForms.Proofs.Deduplication
import RegularForms.Proofs.Reaching
import RegularForms.Proofs.Supply.Call
import RegularForms.Proofs.Supply.Conversion
import RegularForms.Proofs.Labels
