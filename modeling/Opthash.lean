import Opthash.Elastic.Scheduler
import Opthash.Exact.Packing
import Opthash.Exact.Pairing
import Opthash.Exact.Paths
import Opthash.Exact.Quotas
import Opthash.Funnel.Agreement
import Opthash.Funnel.Budget
import Opthash.Guarantees.Algebra
import Opthash.Guarantees.Batches
import Opthash.Guarantees.Borrows
import Opthash.Guarantees.Bulk
import Opthash.Guarantees.Clear
import Opthash.Guarantees.Closures
import Opthash.Guarantees.Comparisons
import Opthash.Guarantees.Epochs
import Opthash.Guarantees.Equal
import Opthash.Guarantees.Extraction
import Opthash.Guarantees.FunnelOracle
import Opthash.Guarantees.Groups
import Opthash.Guarantees.Insertion
import Opthash.Guarantees.Lookup
import Opthash.Guarantees.Maintenance
import Opthash.Guarantees.Occupancy
import Opthash.Guarantees.Oracle
import Opthash.Guarantees.Ownership
import Opthash.Guarantees.References
import Opthash.Guarantees.Schedule
import Opthash.Guarantees.Shrink
import Opthash.Guarantees.Tiling
import Opthash.Guarantees.Views
import Opthash.Guarantees.Walks
import Opthash.Raw.Words
