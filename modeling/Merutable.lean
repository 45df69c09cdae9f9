import Merutable.Lsm.Linear
import Merutable.Lsm.Levels
import Merutable.Lsm.Visibility
import Merutable.CatalogIo
import Merutable.Wal.Recover
import Merutable.Lsm.Tombstones
import Merutable.Replica.Hotswap
import Merutable.Evolution.Persisted
import Merutable.Engine.FlushFile
import Merutable.Lsm.Labels
import Merutable.Mirror.Uploads
import Merutable.Mirror.Manifests
import Merutable.Lsm.ReadOnly
import Merutable.Lsm.FailedWrite
import Merutable.Lsm.Export
import Merutable.Engine.Compaction.Iterator
import Merutable.Engine.Compaction.Output
import Merutable.Engine.Compaction.Picker
import Merutable.Reader.Range
import Merutable.Engine.DvResolve.Stream
import Merutable.Lsm.Recovered
import Merutable.Wal.Wire
import Merutable.Bloom
import Merutable.Iceberg.RowIds
import Merutable.Iceberg.Commit
import Merutable.Codec.Inverse
import Merutable.Replica.Order
import Merutable.Schema.FieldIds
import Merutable.Store.Cached
import Merutable.Wal.Ranges
import Merutable.Engine.Drain
import Merutable.Iceberg.Refresh
import Merutable.Iceberg.Represents
import Merutable.Engine.Refreshed
import Merutable.Lsm.Paged
import Merutable.Lsm.Lineage
