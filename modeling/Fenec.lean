import Fenec.FilterEval
import Fenec.RowRun
import Fenec.Alter
import Fenec.Indexes
import Fenec.Lease.Failover
import Fenec.Replica.Blocks
import Fenec.Replica.Sent
import Fenec.Decode
import Fenec.DecodeSafe
import Fenec.Altered
import Fenec.Segments.Adopted
import Fenec.Changes
import Fenec.Feed
import Fenec.CutShort
import Fenec.SchemaCodec
import Fenec.Tuples
import Fenec.Literals
import Fenec.PathSet
import Fenec.Lib.Gregorian
import Fenec.Stamps
import Fenec.Instants
import Fenec.Chunked
import Fenec.Segments.IdMaps
import Fenec.Bucket
import Fenec.Like
import Fenec.Numbers
import Fenec.Clinger
import Fenec.Facets
import Fenec.ValueOrder
import Fenec.Planner
import Fenec.Partition
import Fenec.Sketch
import Fenec.Vectors
import Fenec.SparseSearch
import Fenec.GeoNear
import Fenec.MergeRuns
import Fenec.Stream
import Fenec.Relaxed
import Fenec.ClaimKinds
import Fenec.Lib.Monotone
import Fenec.Radix
import Fenec.RowOrder
import Fenec.Terms
import Fenec.Subquery
import Fenec.SchemaRun
import Fenec.LiveCopies
