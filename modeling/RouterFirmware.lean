import RouterFirmware.TextStream
import RouterFirmware.SharedProgram
import RouterFirmware.LockProtocol
import RouterFirmware.LockSerial
import RouterFirmware.ConfigDatabase
import RouterFirmware.ConfigScan
import RouterFirmware.ConfigEdit
import RouterFirmware.ConfigResolv
import RouterFirmware.ConfigCommand
import RouterFirmware.ConfigBatch
import RouterFirmware.ConfigFormat
import RouterFirmware.ConfigLookup
import RouterFirmware.ConfigSections
import RouterFirmware.ConfigWrite
import RouterFirmware.ConfigDelete
import RouterFirmware.ConfigItemList
import RouterFirmware.ConfigMerge
import RouterFirmware.ConfigFootprint
import RouterFirmware.ConfigLock
import RouterFirmware.ConfigSerial
import RouterFirmware.BucketTable
import RouterFirmware.MacBinding
import RouterFirmware.SessionLimit
import RouterFirmware.SessionCounters
import RouterFirmware.SessionEnforcement
import RouterFirmware.BlockPartition
import RouterFirmware.Bootmem
import RouterFirmware.LinkedSegment
import RouterFirmware.BootmemList
import RouterFirmware.BootmemWalk
import RouterFirmware.BootmemRuns
import RouterFirmware.BootmemNames
import RouterFirmware.ConfigCategoryList
import RouterFirmware.ConfigInterrupt
import RouterFirmware.GuardedRun
import RouterFirmware.MulticastGroups
import RouterFirmware.EspPassThrough
import RouterFirmware.IsakmpTriggers
import RouterFirmware.SplitDns
import RouterFirmware.ConnectionTable
import RouterFirmware.StatisticsQueries
import RouterFirmware.IpBalance
import RouterFirmware.RouteCache
import RouterFirmware.InputRoutes
import RouterFirmware.FibRules
import RouterFirmware.OutputRoutes
import RouterFirmware.BootmemRelease
import RouterFirmware.BootmemPlace
import RouterFirmware.BootmemRestore
import RouterFirmware.ConfigReads
import RouterFirmware.ConfigChecksum
import RouterFirmware.ConfigPieces
import RouterFirmware.ConfigBatchUpdate
import RouterFirmware.ConfigBulkRead
import RouterFirmware.CString
import RouterFirmware.ConfigParameter
import RouterFirmware.RecordField
import RouterFirmware.ConfigRemove
import RouterFirmware.DnsName
import RouterFirmware.Ipv4Text
import RouterFirmware.ConfigGenerate
import RouterFirmware.PptpConfig
import RouterFirmware.DhcpConfig
import RouterFirmware.DhcpBroadcast
import RouterFirmware.DhcpDns
import RouterFirmware.Ipv6Regular
import RouterFirmware.Ipv6Zip
import RouterFirmware.Ipv6Prefix
import RouterFirmware.PatternLoop
import RouterFirmware.SnortRules
import RouterFirmware.SnortKeep
import RouterFirmware.SnortListing
import RouterFirmware.SnortEntries
import RouterFirmware.SnortCounts
import RouterFirmware.BalanceTable
import RouterFirmware.TailQueue
import RouterFirmware.BalanceMemory
import RouterFirmware.BalanceRuns
import RouterFirmware.BindingRules
import RouterFirmware.BindingLookups
import RouterFirmware.IndexedStores
import RouterFirmware.PortVlan
import RouterFirmware.Extents
import RouterFirmware.FlashBlocks
import RouterFirmware.CrLfLines
import RouterFirmware.OpenvpnLines
import RouterFirmware.UrlFilter
import RouterFirmware.UrlRequests
import RouterFirmware.SnortAction
import RouterFirmware.SnortRisk
import RouterFirmware.SeparatedWords
import RouterFirmware.WebKeywords
import RouterFirmware.WebMatch
import RouterFirmware.PatternReads
import RouterFirmware.OnesComplement
import RouterFirmware.BlockPage
import RouterFirmware.SplitDnsName
import RouterFirmware.SplitDnsSelect
import RouterFirmware.SplitDnsPending
import RouterFirmware.SplitDnsAnswers
import RouterFirmware.DeltaCount
import RouterFirmware.FirstComers
import RouterFirmware.SweepCount
import RouterFirmware.SweepOrder
import RouterFirmware.TrafficDeltas
import RouterFirmware.TopSelection
import RouterFirmware.TopEntries
import RouterFirmware.ServiceTotals
import RouterFirmware.SegmentPerm
import RouterFirmware.SessionSort
import RouterFirmware.AgingTime
import RouterFirmware.ClearList
import RouterFirmware.EspEntries
import RouterFirmware.PortTrigger
import RouterFirmware.MacLearning
import RouterFirmware.LearnReport
import RouterFirmware.NetbiosForward
import RouterFirmware.QqExceptions
import RouterFirmware.SessionQuery
import RouterFirmware.BitSmear
import RouterFirmware.SessionTimer
import RouterFirmware.TimerWheel
import RouterFirmware.TimerBuckets
import RouterFirmware.Ipv6Stores
import RouterFirmware.AtomicWord
import RouterFirmware.Census
import RouterFirmware.CoreBarrier
import RouterFirmware.RecursiveLock
import RouterFirmware.SpinLock
import RouterFirmware.WriterLock
import RouterFirmware.WriterLockDrain
import RouterFirmware.ZoneAllocator
import RouterFirmware.ConnectionLife
import RouterFirmware.ConnectionLimit
import RouterFirmware.DnsMessage
import RouterFirmware.DnsReply
import RouterFirmware.ExpectationLimits
import RouterFirmware.PathMtu
import RouterFirmware.RateLimits
import RouterFirmware.RingWalk
import RouterFirmware.RouteFlush
import RouterFirmware.RouteGarbage
