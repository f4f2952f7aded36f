import SemanticLayer.Main
import SemanticLayer.Workload
import SemanticLayer.Proofs.Field.Symmetric
import SemanticLayer.Proofs.Field.Tiers
import SemanticLayer.Proofs.Filter.Phrase
import SemanticLayer.Proofs.Filter.Values
import SemanticLayer.Proofs.Filter.Weeks
import SemanticLayer.Proofs.History
import SemanticLayer.Proofs.Join.ComponentNames
import SemanticLayer.Proofs.JoinGraphs
import SemanticLayer.Proofs.Project.Dumping
import SemanticLayer.Proofs.Project.Names
import SemanticLayer.Proofs.Query.Belonging
import SemanticLayer.Proofs.Query.Columns
import SemanticLayer.Proofs.Query.Feasible
import SemanticLayer.Proofs.Query.MergedDimensions
import SemanticLayer.Proofs.Query.Mql
import SemanticLayer.Proofs.Query.Connections
import SemanticLayer.Proofs.Query.RowFilters
import SemanticLayer.Proofs.Query.RowPreservation
import SemanticLayer.Proofs.Repository.Clones
import SemanticLayer.Proofs.Sql.Alias
