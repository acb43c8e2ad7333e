import Fedb.Lib.ByteBuffer
import Fedb.Lib.PrefixSum
import Fedb.Codec.Schema
import Fedb.Codec.RowBuilder
import Fedb.Codec.RowView
import Fedb.Codec.RowFormat
import Fedb.Codec.RowLayout
import Fedb.Codec.RowWriter
import Fedb.Codec.RowRoundTrip
import Fedb.Base.Skiplist
import Fedb.Base.SkiplistRun
import Fedb.Lib.ListPrefix
import Fedb.Base.Chain
import Fedb.Lib.Path
import Fedb.Base.SkiplistInv
import Fedb.Base.SkiplistLink
import Fedb.Base.SkiplistRefine
import Fedb.Base.SkiplistQuery
import Fedb.Storage.TTL
import Fedb.Storage.Segment
import Fedb.Storage.SegmentGc
import Fedb.Storage.SegmentStats
import Fedb.Storage.SegmentRun
import Fedb.Storage.MemTable
import Fedb.Lib.Cursor
import Fedb.Storage.TimeIterator
import Fedb.Storage.TraverseIterator
import Fedb.Catalog.FullTableIterator
import Fedb.Tablet.CombineIterator
import Fedb.Tablet.ScanIndex
import Fedb.Tablet.Traverse
import Fedb.Lib.Checksum
import Fedb.Log.Format
import Fedb.Log.Writer
import Fedb.Log.Reader
import Fedb.Log.RoundTrip
import Fedb.Log.LogReader
import Fedb.Log.LogReaderWindow
import Fedb.Replica.LogReplicator
import Fedb.Replica.DeleteBinlog
import Fedb.Log.Truncated
import Fedb.Storage.Binlog
import Fedb.Replica.Recover
import Fedb.Replica.PartFiles
import Fedb.Replica.Recovery
import Fedb.Codec.FlatArray
import Fedb.Codec.FlatArrayRoundTrip
import Fedb.Codec.SchemaCodec
import Fedb.Lib.OrderedMap
import Fedb.Codec.Pairs
import Fedb.Codec.PairsRoundTrip
import Fedb.Lib.Decimal
import Fedb.Codec.TextRow
import Fedb.Codec.TextRowRoundTrip
import Fedb.Codec.FlatRow
import Fedb.Lib.SortedMap
import Fedb.Codec.RowProject
import Fedb.Codec.RowProjectRun
import Fedb.Codec.Memcomparable
import Fedb.Codec.MemcomparableFloat
