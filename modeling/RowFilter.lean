import RowFilter.Main
import RowFilter.Proofs.Canonical.Grouping
import RowFilter.Proofs.Canonical.Height
import RowFilter.Proofs.Canonical.Integers
import RowFilter.Proofs.Canonical.Names
import RowFilter.Proofs.Catalog.Documents
import RowFilter.Proofs.Catalog.Unambiguous
import RowFilter.Proofs.Catalog.Variables
import RowFilter.Proofs.Grammar.Documented
import RowFilter.Proofs.Grammar.Spacing
import RowFilter.Proofs.Json.Nulls
import RowFilter.Proofs.Meaning.Preservation
import RowFilter.Proofs.Resolution.Asked
import RowFilter.Proofs.Resolution.Batch
import RowFilter.Proofs.Resolution.Closed
import RowFilter.Proofs.Resolution.Conditions
import RowFilter.Proofs.Resolution.Locality
import RowFilter.Proofs.Resolution.Represented
import RowFilter.Proofs.Resolution.Shape
import RowFilter.Proofs.Walk.Progress
import RowFilter.Query.Build
