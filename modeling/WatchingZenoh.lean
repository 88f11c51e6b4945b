import WatchingZenoh.AccessControl
import WatchingZenoh.ByteLog
import WatchingZenoh.ByteLogRuns
import WatchingZenoh.ChunkLog
import WatchingZenoh.ChunkLogIter
import WatchingZenoh.ColumnChunk
import WatchingZenoh.ColumnChunkRows
import WatchingZenoh.ColumnLog
import WatchingZenoh.ColumnLogHolds
import WatchingZenoh.ColumnLogRuns
import WatchingZenoh.DeferredFire
import WatchingZenoh.DeferredFireRuns
import WatchingZenoh.DeferredFireTurns
import WatchingZenoh.DeliveryLane
import WatchingZenoh.DeliveryLaneKept
import WatchingZenoh.DeliveryLaneRuns
import WatchingZenoh.DeliveryLaneSamples
import WatchingZenoh.EventRing
import WatchingZenoh.EventRingMemory
import WatchingZenoh.EventRingPair
import WatchingZenoh.EventRingReads
import WatchingZenoh.EventRingRuns
import WatchingZenoh.FragmentBooks
import WatchingZenoh.FragmentBounds
import WatchingZenoh.FragmentGenuine
import WatchingZenoh.FragmentPieces
import WatchingZenoh.FragmentPlace
import WatchingZenoh.FragmentRefusals
import WatchingZenoh.FragmentRuns
import WatchingZenoh.FragmentTable
import WatchingZenoh.Fragments
import WatchingZenoh.FrameEncode
import WatchingZenoh.Hlc
import WatchingZenoh.KeyexprCanon
import WatchingZenoh.KeyexprCanonize
import WatchingZenoh.KeyexprCollapse
import WatchingZenoh.KeyexprCommonChunk
import WatchingZenoh.KeyexprDenote
import WatchingZenoh.KeyexprDescent
import WatchingZenoh.KeyexprGrammar
import WatchingZenoh.KeyexprInclude
import WatchingZenoh.KeyexprIntersect
import WatchingZenoh.KeyexprLanguage
import WatchingZenoh.KeyexprMatch
import WatchingZenoh.KeyexprParts
import WatchingZenoh.KeyexprPattern
import WatchingZenoh.KeyexprPrefix
import WatchingZenoh.KeyexprPrefixAgree
import WatchingZenoh.KeyexprPrefixChunk
import WatchingZenoh.KeyexprPrefixPanic
import WatchingZenoh.KeyexprPrefixRefine
import WatchingZenoh.KeyexprPrefixRoundTrip
import WatchingZenoh.KeyexprPrefixRoute
import WatchingZenoh.KeyexprPrefixWalk
import WatchingZenoh.KeyexprRewrite
import WatchingZenoh.KeyexprValidate
import WatchingZenoh.Library.Bisect
import WatchingZenoh.Library.Calendar
import WatchingZenoh.Library.Chunks
import WatchingZenoh.Library.Cobs
import WatchingZenoh.Library.DepthFirst
import WatchingZenoh.Library.Gaps
import WatchingZenoh.Library.KeyedRows
import WatchingZenoh.Library.KeyedSlots
import WatchingZenoh.Library.LittleEndian
import WatchingZenoh.Library.MergedRuns
import WatchingZenoh.Library.NestedMap
import WatchingZenoh.Library.Newest
import WatchingZenoh.Library.Predecessors
import WatchingZenoh.Library.Procedures
import WatchingZenoh.Library.Readers
import WatchingZenoh.Library.Ring
import WatchingZenoh.Library.Slices
import WatchingZenoh.Library.SortedEntries
import WatchingZenoh.Library.StableGraph
import WatchingZenoh.Library.Steps
import WatchingZenoh.Library.StrictPriority
import WatchingZenoh.Library.SuperWild
import WatchingZenoh.Library.SuperWildPairs
import WatchingZenoh.Library.TreeMaps
import WatchingZenoh.Library.Utf8
import WatchingZenoh.Library.Words
import WatchingZenoh.NetworkCalls
import WatchingZenoh.NetworkForest
import WatchingZenoh.NetworkFreed
import WatchingZenoh.NetworkGossip
import WatchingZenoh.NetworkGraph
import WatchingZenoh.NetworkIndex
import WatchingZenoh.NetworkIngest
import WatchingZenoh.NetworkNeighbours
import WatchingZenoh.NetworkPrune
import WatchingZenoh.NetworkReach
import WatchingZenoh.NetworkRebuild
import WatchingZenoh.NetworkRouteRuns
import WatchingZenoh.NetworkRoutes
import WatchingZenoh.NetworkRuns
import WatchingZenoh.NetworkTopology
import WatchingZenoh.NetworkTrees
import WatchingZenoh.NetworkWeights
import WatchingZenoh.Ntp64
import WatchingZenoh.Offload
import WatchingZenoh.OffloadCarries
import WatchingZenoh.OffloadRuns
import WatchingZenoh.OffloadSteps
import WatchingZenoh.PeerCalls
import WatchingZenoh.PeerPerform
import WatchingZenoh.PeerPlanner
import WatchingZenoh.PeerRuns
import WatchingZenoh.PeerStops
import WatchingZenoh.PeerSystem
import WatchingZenoh.PeerViews
import WatchingZenoh.PeerWithdraw
import WatchingZenoh.PendingQueries
import WatchingZenoh.PendingQueriesCounts
import WatchingZenoh.PendingQueriesRuns
import WatchingZenoh.PendingQueriesSteps
import WatchingZenoh.ReassemblyChain
import WatchingZenoh.ReassemblyDispatch
import WatchingZenoh.ReassemblyHistory
import WatchingZenoh.ReassemblyPool
import WatchingZenoh.ReassemblyRefine
import WatchingZenoh.ReassemblyRoundTrip
import WatchingZenoh.ReassemblySlot
import WatchingZenoh.ReassemblySplice
import WatchingZenoh.ReassemblyStep
import WatchingZenoh.ReassemblyWeave
import WatchingZenoh.ReplayCursor
import WatchingZenoh.ReplayRuns
import WatchingZenoh.Rfc3339
import WatchingZenoh.RouteCache
import WatchingZenoh.SerialFlush
import WatchingZenoh.SerialFrames
import WatchingZenoh.SerialLine
import WatchingZenoh.SerialLink
import WatchingZenoh.Sn
import WatchingZenoh.SnGate
import WatchingZenoh.SortedChunks
import WatchingZenoh.StorageAligner
import WatchingZenoh.StorageBackend
import WatchingZenoh.StorageCalls
import WatchingZenoh.StorageCaptures
import WatchingZenoh.StorageConverge
import WatchingZenoh.StorageDigest
import WatchingZenoh.StorageFetch
import WatchingZenoh.StorageHeld
import WatchingZenoh.StorageHistory
import WatchingZenoh.StorageLaid
import WatchingZenoh.StorageNoResurrection
import WatchingZenoh.StorageOrderBound
import WatchingZenoh.StorageOrderExact
import WatchingZenoh.StorageOrderFree
import WatchingZenoh.StorageOverride
import WatchingZenoh.StorageRegistry
import WatchingZenoh.StorageReplication
import WatchingZenoh.StorageState
import WatchingZenoh.StorageSteps
import WatchingZenoh.StorageTally
import WatchingZenoh.StorageWire
import WatchingZenoh.StorageWireExact
import WatchingZenoh.StreamWindow
import WatchingZenoh.StreamWindowParse
import WatchingZenoh.StreamWindowRuns
import WatchingZenoh.StreamWindowTurns
import WatchingZenoh.SubscriberActs
import WatchingZenoh.SubscriberCalls
import WatchingZenoh.SubscriberComplete
import WatchingZenoh.SubscriberIngest
import WatchingZenoh.SubscriberOrder
import WatchingZenoh.SubscriberRecovery
import WatchingZenoh.SubscriberSource
import WatchingZenoh.SubscriberState
import WatchingZenoh.SubscriberSteps
import WatchingZenoh.Supervisor
import WatchingZenoh.SupervisorRuns
import WatchingZenoh.Tc6
import WatchingZenoh.Tc6Frames
import WatchingZenoh.Tc6RoundTrip
import WatchingZenoh.Tc6Runs
import WatchingZenoh.TcpCarried
import WatchingZenoh.TcpEvents
import WatchingZenoh.TcpExact
import WatchingZenoh.TcpReassembly
import WatchingZenoh.TcpRuns
import WatchingZenoh.TcpStream
import WatchingZenoh.TcpSynData
import WatchingZenoh.TcpSynRuns
import WatchingZenoh.Text
import WatchingZenoh.Timestamp
import WatchingZenoh.VerdictBase
import WatchingZenoh.VerdictColumn
import WatchingZenoh.VerdictCopies
import WatchingZenoh.VerdictPatterns
import WatchingZenoh.WireBincode
import WatchingZenoh.WriterQueue
import WatchingZenoh.WriterQueueFence
import WatchingZenoh.WriterQueueOrder
import WatchingZenoh.WriterQueuePacks
import WatchingZenoh.WriterQueueTakes
import WatchingZenoh.ZidHex
