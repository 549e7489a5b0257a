import HM4.MyString
import HM4.CmpLCP
import HM4.HPair
import HM4.General.BoundedSearch
import HM4.DiskTable
import HM4.HotLine
import HM4.HotLineSearch
import HM4.General.LevelOrder
import HM4.BTreeIndexBuilder
import HM4.BTreeSearch
import HM4.General.OpenAddressing
import HM4.HashIndex
import HM4.General.PrunedScan
import HM4.DiskSearch
import HM4.CollectionList
import HM4.TombstoneCalculator
import HM4.General.BinaryHeap
import HM4.General.KWayMerge
import HM4.CollectionIterator
import HM4.DualIterator
import HM4.Compaction
import HM4.RedisProtocol
import HM4.RedisResponse
import HM4.FileWriter
import HM4.TableFile
import HM4.TableRoundTrip
import HM4.General.KeyedList
import HM4.General.Footprint
import HM4.General.LinkedTree
import HM4.PairFactory
import HM4.MemList
import HM4.AVLList
import HM4.AVLLinks
import HM4.AVLBalance
import HM4.AVLOrder
import HM4.AVLSearch
import HM4.AVLClear
import HM4.AVLContents
import HM4.HPairRank
import HM4.ListSteps
import HM4.LinkList
import HM4.VectorList
import HM4.PairVector
import HM4.UnrolledLinkList
import HM4.ListRuns
import HM4.General.SkipLanes
import HM4.General.TowerMemory
import HM4.SkipList
import HM4.SkipListLanes
import HM4.SkipListContents
import HM4.SkipListRuns
import HM4.Database
import HM4.VFactory
import HM4.BitSet
import HM4.BitSetRuns
import HM4.General.Interleave
import HM4.General.BitLinear
import HM4.MortonCurve
import HM4.BigMin
import HM4.General.TokenBucket
import HM4.TBConsume
import HM4.Expiration
import HM4.General.CountSketch
import HM4.Sketch
import HM4.SketchRuns
import HM4.KeyValueWorker
import HM4.General.FreeList
import HM4.TieredMemoryManager
import HM4.General.Separated
import HM4.IndexToken
import HM4.IndexKeys
import HM4.General.RecordIndex
import HM4.ZSet
import HM4.RSet
import HM4.RSetRuns
import HM4.Queue
import HM4.QueueRuns
import HM4.AVLAddresses
import HM4.ArenaList
import HM4.ConcurrentFlushList
import HM4.ArenaSizing
import HM4.TieredMemoryRuns
import HM4.DirectoryListLoader
import HM4.FileWriterCalls
import HM4.TableBuilder
import HM4.TableBuilderCalls
import HM4.FlushOutcomes
import HM4.AccumulateResults
import HM4.Autocomplete
import HM4.AutocompleteRuns
import HM4.MutableX
import HM4.MutableXRuns
import HM4.VectorsBit
import HM4.ThreeWayQuickSort
import HM4.UnsortedList
import HM4.CuckooFilter
import HM4.Vectors2
import HM4.PrefixSkipping
import HM4.GeoHash
import HM4.GeoRadius
import HM4.VectorIndex
import HM4.IOURingEngine
import HM4.AsyncCompletionLoop
import HM4.AsyncCompletionLoopRuns
import HM4.General.SlotTable
import HM4.CuckooFilterRemove
import HM4.FixedItem
import HM4.HeavyHitter
import HM4.MisraGries
import HM4.RingBuffer
import HM4.SList
import HM4.General.Consecutive
import HM4.Isam
import HM4.General.ProbeTable
import HM4.IsamSearchers
import HM4.General.BoundedInt
import HM4.Counter
import HM4.General.FixedNumeral
import HM4.HexConvert
import HM4.MortonKeys
import HM4.VectorSearch
import HM4.VectorSearchRuns
import HM4.VectorSearchIndex
import HM4.VectorSearchExact
import HM4.General.Lanes
import HM4.MIndex2
import HM4.MIndex2Cursors
import HM4.MIndex2Search
import HM4.MIndex2Exact
import HM4.ScanTails
import HM4.SketchSizes
import HM4.BinarySearch
import HM4.RegisterSketches
import HM4.GeoHashNeighbours
import HM4.InPlaceUpdate
import HM4.UnrolledLinkListRuns
import HM4.SListGet
import HM4.PointSets
import HM4.PointPages
import HM4.LinearCurve
import HM4.PointQueries
import HM4.MortonSearch
import HM4.Digest
import HM4.BinLog
import HM4.SparseMap
import HM4.StoreWrites
import HM4.UTF8Tokenizer
import HM4.TierSizing
import HM4.ExpireAt
import HM4.CopyMove
import HM4.HashListing
import HM4.HashWide
import HM4.Accumulators
import HM4.SetMany
import HM4.AsyncLoop
import HM4.General.Draws
import HM4.ReservoirSampling
import HM4.GeoHashCodec
import HM4.AccData
import HM4.Base64
import HM4.StringTokenizer
import HM4.BloomFilter
import HM4.MergeCommands
import HM4.General.Overwritten
import HM4.Selectors
import HM4.ListGuarantee
import HM4.AVLHeight
import HM4.LastWrite
