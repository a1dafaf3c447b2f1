import RowAccess.Expectation
import RowAccess.Sample.Rows
import RowAccess.Workspace
import RowAccess.Proofs.FailsClosed
import RowAccess.Proofs.MissingRelated
import RowAccess.Proofs.SeveralEntities
import RowAccess.Proofs.FromClause
import RowAccess.Proofs.AppendedRule
import RowAccess.Proofs.CountedRows
import RowAccess.Proofs.LiftedRules
import RowAccess.Proofs.AttributeMemo
import RowAccess.Proofs.JoinHistory
import RowAccess.Proofs.JoinOrder
import RowAccess.Proofs.RuleOrder
import RowAccess.Proofs.ChainedRules
import RowAccess.Proofs.RegistryHistory
import RowAccess.Proofs.Isolation
import RowAccess.Proofs.ConfigurationHistory
import RowAccess.Proofs.OppositeComparisons
import RowAccess.Proofs.FirstFault
import RowAccess.Proofs.JoinedConditions
import RowAccess.Proofs.QueryPath
import RowAccess.Proofs.IteratedRules
import RowAccess.Proofs.MissingGranted
import RowAccess.Proofs.Spellings
import RowAccess.Proofs.EnumerationClasses
import RowAccess.Proofs.JoinedFamilies
import RowAccess.Proofs.DecisionRecords
import RowAccess.Proofs.Verdicts
import RowAccess.Proofs.Pages
import RowAccess.Proofs.Descents
