import FeatureStore.Main
import FeatureStore.Proofs.Read.MergeOrder
import FeatureStore.Proofs.Read.Roundtrip
import FeatureStore.Proofs.Write.Create
import FeatureStore.Proofs.Write.Links
import FeatureStore.Provider
import FeatureStore.Proofs.Table.WellFormed
import FeatureStore.Proofs.Table.Merging
import FeatureStore.Proofs.Write.Returned
import FeatureStore.Proofs.Read.Opening
import FeatureStore.Proofs.Identifier
import FeatureStore.Proofs.Read.Delivery
import FeatureStore.Proofs.Read.Layout
import FeatureStore.Proofs.Write.DryRun
import FeatureStore.Proofs.Write.Kept
import FeatureStore.Proofs.Sql.References
import FeatureStore.Proofs.Sql.Complement
import FeatureStore.Proofs.Sql.SharedJoins
import FeatureStore.Proofs.Sql.Structure
import FeatureStore.Proofs.Write.Literals
import FeatureStore.Proofs.Read.Words
import FeatureStore.Proofs.Read.Correlated
import FeatureStore.Proofs.Table.Reordered
import FeatureStore.Proofs.Read.Changes
import FeatureStore.Proofs.Read.Bindings
import FeatureStore.Proofs.Read.Failures
import FeatureStore.Proofs.Sql.Moments
import FeatureStore.Proofs.Write.Addressed
import FeatureStore.Proofs.Read.NumberOrder
import FeatureStore.Proofs.Sql.Periods
import FeatureStore.Proofs.Sql.GroupedElements
import FeatureStore.Proofs.Path.RowFilters
import FeatureStore.Proofs.Table.Spliced
import FeatureStore.Proofs.Write.IdValues
import FeatureStore.Proofs.Read.RowNumbers
import FeatureStore.Proofs.Write.Columns
import FeatureStore.Proofs.Sql.Levels
import FeatureStore.Proofs.Exchange
import FeatureStore.Proofs.Read.Bounded
import FeatureStore.Proofs.Table.Prefixes
