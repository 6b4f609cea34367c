import ZeroSync.AST
import ZeroSync.AdvanceFacts
import ZeroSync.AdvanceRuns
import ZeroSync.BTreeDelete
import ZeroSync.BTreeDiff
import ZeroSync.BTreeDiffFacts
import ZeroSync.BTreeDiffTrees
import ZeroSync.BTreeHashes
import ZeroSync.BTreeInsert
import ZeroSync.BTreeIterators
import ZeroSync.BTreeNodes
import ZeroSync.BTreePutMany
import ZeroSync.BTreePutManyFacts
import ZeroSync.BTreePutManyTrees
import ZeroSync.BTreeRuns
import ZeroSync.BTreeScan
import ZeroSync.BTreeScanFacts
import ZeroSync.BTreeSet
import ZeroSync.BTreeWrite
import ZeroSync.BTreeWriteDel
import ZeroSync.BTreeWriteNodes
import ZeroSync.BTreeWritePut
import ZeroSync.BTreeWriteRuns
import ZeroSync.BackfillBookkeeping
import ZeroSync.BackfillManager
import ZeroSync.BackfillManagerFacts
import ZeroSync.BigEndian
import ZeroSync.Binary64
import ZeroSync.BinaryCopyParser
import ZeroSync.BinaryCopyParserFacts
import ZeroSync.BinarySearch
import ZeroSync.Blocks
import ZeroSync.BreadthFirst
import ZeroSync.CRUD
import ZeroSync.CVRAdvancement
import ZeroSync.CVRConfig
import ZeroSync.CVRDesires
import ZeroSync.CVRHydration
import ZeroSync.CVRReceived
import ZeroSync.CVRStored
import ZeroSync.CVRTracking
import ZeroSync.CVRUnreferenced
import ZeroSync.CVRUpdater
import ZeroSync.CVRVersion
import ZeroSync.CanonicalKeyTexts
import ZeroSync.Cap
import ZeroSync.CapFacts
import ZeroSync.CapRuns
import ZeroSync.Catalog
import ZeroSync.ChangeLogCodec
import ZeroSync.ChangeLogCookieStores
import ZeroSync.ChangeLogCookies
import ZeroSync.ChangeLogCookiesFacts
import ZeroSync.ChangeLogDB
import ZeroSync.ChangeLogDBFacts
import ZeroSync.ChangeLogProcess
import ZeroSync.ChangeLogPurge
import ZeroSync.ChangeLogReads
import ZeroSync.ChangeLogReplay
import ZeroSync.ChangeLogStream
import ZeroSync.ConnectionContext
import ZeroSync.ConnectionContextFacts
import ZeroSync.ConnectionRuns
import ZeroSync.CreatePredicate
import ZeroSync.DagStore
import ZeroSync.DagStoreFacts
import ZeroSync.Data
import ZeroSync.DbIndex
import ZeroSync.DbIndexFacts
import ZeroSync.DecodeNumeric
import ZeroSync.Delta
import ZeroSync.Divergence
import ZeroSync.Evaluation
import ZeroSync.Fallible
import ZeroSync.Filter
import ZeroSync.FiltersToSQL
import ZeroSync.FiltersToSQLFacts
import ZeroSync.FloatToOrderedString
import ZeroSync.Grouping
import ZeroSync.Heap
import ZeroSync.InactiveQueries
import ZeroSync.Interleaves
import ZeroSync.JSONText
import ZeroSync.Join
import ZeroSync.JoinKeys
import ZeroSync.JoinOverlay
import ZeroSync.JoinUtils
import ZeroSync.KeyedTable
import ZeroSync.LexiVersion
import ZeroSync.Like
import ZeroSync.Memo
import ZeroSync.Merge
import ZeroSync.MessageSubscription
import ZeroSync.MessageSubscriptionFacts
import ZeroSync.MessageSubscriptionRuns
import ZeroSync.Mutagen
import ZeroSync.MutagenFacts
import ZeroSync.MutateRequests
import ZeroSync.MutationRuns
import ZeroSync.MutationTracker
import ZeroSync.NormalizeAST
import ZeroSync.NormalizeASTFacts
import ZeroSync.Operator
import ZeroSync.OrderedMap
import ZeroSync.PartialMaps
import ZeroSync.PartitionSizes
import ZeroSync.Patch
import ZeroSync.PatchFacts
import ZeroSync.PlanGraph
import ZeroSync.PlanGraphBuilt
import ZeroSync.PlanGraphChain
import ZeroSync.PlanGraphUnions
import ZeroSync.PlanGraphWalk
import ZeroSync.PlannerCost
import ZeroSync.PokeChunk
import ZeroSync.PokeHandler
import ZeroSync.PokeHandlerFacts
import ZeroSync.PolicyChecks
import ZeroSync.PolicyChecksFacts
import ZeroSync.PrefixOrder
import ZeroSync.ProcessMutations
import ZeroSync.ProcessMutationsFacts
import ZeroSync.PushAccumulated
import ZeroSync.Pusher
import ZeroSync.PusherFacts
import ZeroSync.QueryBuilder
import ZeroSync.QueryBuilderFacts
import ZeroSync.QueryManager
import ZeroSync.QueryManagerFacts
import ZeroSync.QueryRegistration
import ZeroSync.Queue
import ZeroSync.QueueFacts
import ZeroSync.ReadAuthorizer
import ZeroSync.RefCountFacts
import ZeroSync.RefCountUpdates
import ZeroSync.RefCounts
import ZeroSync.RegExpText
import ZeroSync.ResolveScalarFacts
import ZeroSync.ResolveScalarSubqueries
import ZeroSync.RetainedLog
import ZeroSync.RingBuffer
import ZeroSync.RingBufferRuns
import ZeroSync.RowSetSignature
import ZeroSync.RunBackfill
import ZeroSync.RunBackfillFacts
import ZeroSync.RunBackfillRuns
import ZeroSync.Runs
import ZeroSync.SQLConvertFormat
import ZeroSync.SQLConvertFormatFacts
import ZeroSync.SQLiteLike
import ZeroSync.ScanResults
import ZeroSync.SchemaChanges
import ZeroSync.SchemaChangesFacts
import ZeroSync.SimplifyCondition
import ZeroSync.Skip
import ZeroSync.SlidingWindowLimiter
import ZeroSync.Snapshotter
import ZeroSync.SortedList
import ZeroSync.SourcePushes
import ZeroSync.StateVersion
import ZeroSync.StaticParameters
import ZeroSync.Storer
import ZeroSync.StorerCatchup
import ZeroSync.StorerCatchupFacts
import ZeroSync.StorerFacts
import ZeroSync.StorerRuns
import ZeroSync.StreamMerges
import ZeroSync.StreamMergesFacts
import ZeroSync.Streams
import ZeroSync.SubscriptionMatches
import ZeroSync.SubscriptionRuns
import ZeroSync.Subscriptions
import ZeroSync.SubscriptionsFacts
import ZeroSync.TTL
import ZeroSync.TableSource
import ZeroSync.TableSourceFacts
import ZeroSync.Take
import ZeroSync.TakeFacts
import ZeroSync.TakePush
import ZeroSync.TakeRuns
import ZeroSync.TextEncoder
import ZeroSync.ThreeValued
import ZeroSync.ToggledSet
import ZeroSync.Transactions
import ZeroSync.TransformFilters
import ZeroSync.Turns
import ZeroSync.UnionFanIn
import ZeroSync.UnionPush
import ZeroSync.UnionRuns
import ZeroSync.UpstreamAcker
import ZeroSync.UpstreamAckerFacts
import ZeroSync.View
import ZeroSync.ViewRefs
import ZeroSync.ViewRuns
import ZeroSync.WriteAuthorizer
import ZeroSync.WriteAuthorizerFacts
