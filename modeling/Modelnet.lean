import Modelnet.Lib.Run
import Modelnet.Lib.Ring
import Modelnet.Lib.Wheel
import Modelnet.Lib.Worklist
import Modelnet.Lib.Traced
import Modelnet.UnlimitedHop
import Modelnet.Horizon
import Modelnet.Linux.Ordering
import Modelnet.PathArrays
import Modelnet.PathWalk
import Modelnet.PathStorage
import Modelnet.WalkablePaths
import Modelnet.Linux.Reconfig
import Modelnet.Linux.Accepted
import Modelnet.Linux.PathStorage
import Modelnet.Linux.Draining
import Modelnet.Linux.Rounding
import Modelnet.Linux.RandomBits
import Modelnet.HopTable
import Modelnet.Divisors
import Modelnet.Linux.FailedLoad
import Modelnet.FailedResize
import Modelnet.Conversions
import Modelnet.Linux.Traversal
import Modelnet.Linux.Timely
import Modelnet.Linux.Tcpdump
import Modelnet.Linux.HopStats
import Modelnet.Linux.HopCounters
import Modelnet.Linux.LostPackets
import Modelnet.Client.SocketBits
import Modelnet.Client.Rebinding
import Modelnet.Client.ChosenPort
import Modelnet.AddressRewrite
import Modelnet.FreeBSD.AggregateRuns
import Modelnet.FreeBSD.RecordIsolation
import Modelnet.Lib.Lease
import Modelnet.FreeBSD.Reunion
import Modelnet.FreeBSD.Journey
import Modelnet.FreeBSD.Walking
import Modelnet.FreeBSD.Draining
import Modelnet.FreeBSD.PathAccesses
import Modelnet.FreeBSD.OnPaths
import Modelnet.FreeBSD.PathBounds
import Modelnet.Lib.Pointers
import Modelnet.Tools.Reassign
import Modelnet.Tools.Handover
import Modelnet.Scripts.Topology
import Modelnet.Scripts.Mkmodel
import Modelnet.Scripts.Modelload
import Modelnet.Scripts.Dealing
import Modelnet.Scripts.FirstHop
import Modelnet.Scripts.VirtualAddress
import Modelnet.Scripts.NodeTable
import Modelnet.Scripts.Vips
import Modelnet.Scripts.Allpairs
import Modelnet.FreeBSD.XcpEstimates
import Modelnet.FreeBSD.XcpBudget
import Modelnet.FreeBSD.XcpDivisors
import Modelnet.FreeBSD.Xtq
import Modelnet.FreeBSD.XtqSafety
import Modelnet.FreeBSD.HopScheds
import Modelnet.FreeBSD.HopClock
import Modelnet.FreeBSD.XcpTimers
import Modelnet.FreeBSD.TimerDelays
import Modelnet.Scripts.Modelmod
import Modelnet.Lib.SortedMap
import Modelnet.Lib.Xml
import Modelnet.Lib.XmlValues
import Modelnet.Tools.Mngraph
import Modelnet.Tools.GraphText
import Modelnet.Tools.GraphRead
import Modelnet.Tools.GraphRoundTrip
import Modelnet.Tools.GraphReadBack
import Modelnet.FreeBSD.Fragments
import Modelnet.SlowLinks
import Modelnet.TickWrap
import Modelnet.Tools.WeightByFlowmap
import Modelnet.Tools.AllpairsFiles
import Modelnet.Tools.BreadthFirst
import Modelnet.Tools.ShortestPaths
import Modelnet.Lib.Widths
import Modelnet.Scripts.PrintedPaths
import Modelnet.Tools.WorstCase
import Modelnet.Tools.WorstCaseWeights
import Modelnet.Tools.FlowLists
import Modelnet.Tools.Filling
import Modelnet.Tools.Capacities
import Modelnet.Client.HostNames
import Modelnet.Lib.LinkedLists
import Modelnet.Client.HostCache
import Modelnet.Client.CachedHosts
import Modelnet.Client.NameLookups
import Modelnet.Client.ReverseLookups
import Modelnet.Tools.Mirrors
import Modelnet.Lib.Rows
import Modelnet.Tools.PartitionerInput
import Modelnet.Lib.Bins
import Modelnet.Tools.Blobs
import Modelnet.Tools.ExistingAssignment
import Modelnet.Lib.Matching
import Modelnet.Tools.Assigndiff
import Modelnet.Tools.MinimalChanges
import Modelnet.Lib.NumberedTrees
import Modelnet.Tools.DroppedPackets
import Modelnet.Tools.Hiergen
import Modelnet.Tools.Gentargets
import Modelnet.Lib.Turns
import Modelnet.Tools.DynamicTargets
import Modelnet.Tools.RandomTargets
import Modelnet.Lib.Draws
import Modelnet.Tools.FlowPatterns
import Modelnet.Tools.ConstructFlows
import Modelnet.Tools.GmlScanner
import Modelnet.Tools.GmlParser
import Modelnet.Tools.GmlDocuments
import Modelnet.Tools.GmlText
import Modelnet.Lib.Leda
import Modelnet.Tools.Gmlp
import Modelnet.Tools.GmlGraphs
import Modelnet.FreeBSD.UdpChecksum
import Modelnet.Lib.Frames
import Modelnet.Tools.LogFiles
import Modelnet.Tools.RequiredRoutes
import Modelnet.Scripts.Inet2xml
import Modelnet.Scripts.GeneratedTopology
import Modelnet.Tools.Traffic
import Modelnet.Tools.FlowLifecycles
import Modelnet.Tools.FlowLimits
import Modelnet.Lib.Cuts
import Modelnet.Tools.Assignment
import Modelnet.Tools.CrossTraffic
import Modelnet.Tools.NodePartition
