import KfkClient.Lib.CString
import KfkClient.Lib.Decimal
import KfkClient.Lib.OrderedMap
import KfkClient.Lib.Transition
import KfkClient.Store.Opdb
import KfkClient.Store.LevelDb
import KfkClient.Store.Lmdb
import KfkClient.Cache.Send
import KfkClient.Cache.Keys
import KfkClient.Cache.Steps
import KfkClient.Cache.Evict
import KfkClient.Client.World
import KfkClient.Store.MapSpec
import KfkClient.Client.Recovery
import KfkClient.Client.Outbox
import KfkClient.Client.Content
import KfkClient.Client.Receipts
import KfkClient.Client.Backends
import KfkClient.Concurrent.Machine
import KfkClient.Concurrent.Numbering
import KfkClient.Concurrent.Safety
import KfkClient.Client.StoreFailures
import KfkClient.Cache.Frame
import KfkClient.Client.KeyValue
import KfkClient.Client.TopicsOnly
import KfkClient.Client.Provenance
import KfkClient.Consumer.Broker
import KfkClient.Consumer.Resume
import KfkClient.Consumer.Delivery
import KfkClient.Consumer.Script
import KfkClient.Consumer.Errors
import KfkClient.Client.Termination
import KfkClient.Client.Polling
import KfkClient.Client.Losses
import KfkClient.Cache.ReadBack
import KfkClient.Client.Buffers
import KfkClient.Logger.Machine
import KfkClient.Logger.Iteration
import KfkClient.Logger.Steps
import KfkClient.Logger.Returns
import KfkClient.Logger.Queue
import KfkClient.Logger.Drain
import KfkClient.Logger.Rotation
import KfkClient.Lib.Codec
import KfkClient.Lib.Crc
import KfkClient.Lib.MultiVersion
import KfkClient.Lib.Bisect
import KfkClient.Lib.Cursor
import KfkClient.Engine.Coding
import KfkClient.Engine.Crc32c
import KfkClient.Engine.Log
import KfkClient.Engine.LogRoundTrip
import KfkClient.Engine.InternalKey
import KfkClient.Engine.WriteBatch
import KfkClient.Engine.Version
import KfkClient.Engine.VersionGet
import KfkClient.Engine.VersionBuilder
import KfkClient.Engine.Tables
import KfkClient.Engine.PickCompaction
import KfkClient.Engine.CompactionWork
import KfkClient.Engine.Install
import KfkClient.Engine.Db
import KfkClient.Engine.DbInvariant
import KfkClient.Engine.DbCompaction
import KfkClient.Engine.DbRefinement
import KfkClient.Engine.MergingIterator
import KfkClient.Engine.TwoLevelIterator
import KfkClient.Engine.DbIter
import KfkClient.Engine.DbIterSearch
import KfkClient.Engine.DbIterMoves
import KfkClient.Engine.NewIterator
