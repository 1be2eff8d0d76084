import Redpanda.Raft.Reconfiguration
import Redpanda.Kafka.Duplicates
import Redpanda.Kafka.Acknowledge
import Redpanda.Raft.ElectionSafety
import Redpanda.LevelOne.Lsm.CompactionInfo
import Redpanda.Datalake.ExactlyOnce
import Redpanda.Cluster.SequenceOrder
import Redpanda.Cluster.DuplicateAnswers
import Redpanda.Cluster.AbortedExact
import Redpanda.Cluster.LastStableOffset
import Redpanda.CloudTopics.FencedLog
import Redpanda.CloudTopics.LevelZeroGc
import Redpanda.CloudStorage.CloudLogSize
import Redpanda.CloudStorage.SegmentsToCleanup
import Redpanda.Lsm.GarbageCollection
import Redpanda.LevelOne.Replicated.ManifestWrites
import Redpanda.Compaction.SelfCompaction
import Redpanda.Compaction.LatestState
import Redpanda.Storage.KvstoreRecovery
import Redpanda.Storage.TimeQueryAnswers
import Redpanda.LevelOne.ObjectSeek
import Redpanda.Datalake.Revisions
import Redpanda.Kafka.ProduceTopic
import Redpanda.Kafka.FetchResponse
import Redpanda.CloudStorage.SegmentMetaCstore
import Redpanda.LevelOne.Terms
import Redpanda.CloudStorage.SegmentLookup
import Redpanda.Compaction.AdjacentRanges
import Redpanda.Kafka.BulkWriteOffsets
import Redpanda.Kafka.Subscriptions
import Redpanda.Raft.QuorumMatch
import Redpanda.Model.PlaceholderBatches
import Redpanda.Lib.Gaps
import Redpanda.Storage.Gaps
import Redpanda.Storage.OffsetTranslation
