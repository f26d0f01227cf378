import ContractVerifier.Decorator
import ContractVerifier.Main
import ContractVerifier.Proofs.Lower.Complete
import ContractVerifier.Proofs.Lower.Exact
import ContractVerifier.Proofs.Lower.Skeleton
import ContractVerifier.Proofs.Lower.Loops
import ContractVerifier.Proofs.Program.Module
import ContractVerifier.Proofs.Source.Preprocess
import ContractVerifier.Proofs.Wp.Exact
import ContractVerifier.Smt.Enumeration
import ContractVerifier.Smt.Pool
import ContractVerifier.Proofs.Expr.Climb
import ContractVerifier.Proofs.Expr.Recognition
import ContractVerifier.Proofs.Expr.RoundTrip
import ContractVerifier.Proofs.Flow.Cycle
import ContractVerifier.Proofs.Flow.Dominance
import ContractVerifier.Proofs.Flow.NaturalLoop
import ContractVerifier.Proofs.Flow.Live
import ContractVerifier.Proofs.Wp.Termination
import ContractVerifier.Proofs.Smt.Meaning
import ContractVerifier.Proofs.Smt.Encode
import ContractVerifier.Proofs.Smt.Verdict
import ContractVerifier.Proofs.Smt.Pool
import ContractVerifier.Proofs.Smt.Encoding
import ContractVerifier.Proofs.Wp.Failure
import ContractVerifier.Proofs.Wp.Coverage
import ContractVerifier.Proofs.Wp.Live
import ContractVerifier.Proofs.Wp.Relate
import ContractVerifier.Proofs.Program.Contracts
import ContractVerifier.Proofs.Program.Redefinition
import ContractVerifier.Proofs.Program.WellFormed
import ContractVerifier.Proofs.Program.Loops
import ContractVerifier.Proofs.Program.Annotations
import ContractVerifier.Proofs.Program.Hygiene
import ContractVerifier.Proofs.Source.Names
import ContractVerifier.Proofs.Source.Temporaries
import ContractVerifier.Proofs.Source.Normal
import ContractVerifier.Proofs.Lower.Failure
import ContractVerifier.Proofs.Source.CallsKept
import ContractVerifier.Proofs.Program.Reports
import ContractVerifier.Proofs.Program.Typing
import ContractVerifier.Proofs.Program.Renaming
import ContractVerifier.Proofs.Expr.Offending
import ContractVerifier.Proofs.Flow.DepthFirst
import ContractVerifier.Proofs.Flow.Drawing
import ContractVerifier.Proofs.Expr.Openings
import ContractVerifier.Proofs.Expr.Parentheses
import ContractVerifier.Proofs.Cli.Files
import ContractVerifier.Proofs.Cli.Turn
import ContractVerifier.Proofs.Cli.ExitStatus
import ContractVerifier.Proofs.Expr.Substitution
import ContractVerifier.Proofs.Wp.Supply
import ContractVerifier.Proofs.Expr.MaximalMunch
