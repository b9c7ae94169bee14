import DeltaSwamp.Commit.Landing
import DeltaSwamp.Checksum.Run
import DeltaSwamp.Distributed.Abort
import DeltaSwamp.LogClean.Gap
import DeltaSwamp.Vacuum.Safe
import DeltaSwamp.Identity.Unique
import DeltaSwamp.Metadata.Mapping
import DeltaSwamp.Metadata.Dangling
import DeltaSwamp.Idempotent.Paths
import DeltaSwamp.Compact.Ends
import DeltaSwamp.Restore.Metadata
import DeltaSwamp.Restore.PutBack
import DeltaSwamp.Conflict.Order
import DeltaSwamp.Clone.Carried
import DeltaSwamp.Routing.Fallback
import DeltaSwamp.Snapshots.Returned
import DeltaSwamp.Scan.Grouped
import DeltaSwamp.CommitTime.Range
import DeltaSwamp.Skipping
import DeltaSwamp.Vending.Honoured
import DeltaSwamp.Append.Once
import DeltaSwamp.Stats.Exact
import DeltaSwamp.Creating.Whole
import DeltaSwamp.Creating.Rollback
import DeltaSwamp.Vending.Slot
import DeltaSwamp.Naming.Named
import DeltaSwamp.Vacuum.Confined
import DeltaSwamp.Arrow.Conformed
import DeltaSwamp.Commit.Streamed
import DeltaSwamp.Commit.Disjoint
import DeltaSwamp.Arrow.Reordered
import DeltaSwamp.Storage.Contacted
import DeltaSwamp.Storage.Respelled
import DeltaSwamp.Distributed.Balance
import DeltaSwamp.Distributed.Merger
import DeltaSwamp.Predicate.Prepared
import DeltaSwamp.Compact.Stream
import DeltaSwamp.Dialect.Substring
import DeltaSwamp.Rewrite.Rounded
import DeltaSwamp.Dialect.Spellings
import DeltaSwamp.Counting.Exact
import DeltaSwamp.Metadata.Lossless
import DeltaSwamp.Feed.Stitched
import DeltaSwamp.Warehouse.Assembled
import DeltaSwamp.Metadata.Stored
import DeltaSwamp.Dynamic.Replaced
import DeltaSwamp.Variant.Rebuilt
