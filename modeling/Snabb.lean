import Snabb.Core.Timer.Schedule
import Snabb.Core.Freelist
import Snabb.Core.GroupFreelist
import Snabb.Lib.Interlink
import Snabb.Lib.InterlinkLifeCycle
import Snabb.Lib.TokenBucket
import Snabb.Lib.Lpm.Lpm248Use
import Snabb.HybridAccess.Recombination.Conservation
import Snabb.HybridAccess.Recombination.Holding
import Snabb.HybridAccess.Conformance
import Snabb.HybridAccess.Path.Transparency
import Snabb.Apps.Ipv6.Reassemble
import Snabb.Apps.Lwaftr.LookupQueue
import Snabb.Lib.Yang.ListUse
import Snabb.Lib.Yang.HeapUse
import Snabb.Lib.Ptree.Channel
import Snabb.Lib.Ptree.ActionRoundTrip
import Snabb.Apps.Rss.Delivery
import Snabb.Apps.Rss.Instances
import Snabb.Apps.Bridge.Delivery
import Snabb.HybridAccess.DdcPacket
import Snabb.HybridAccess.Middleware.DelayerTS
import Snabb.HybridAccess.Recombination.StaleMemory
import Snabb.Apps.Bridge.Ageing
import Snabb.Lib.XsdRegexp.Spelling
import Snabb.Lib.XsdRegexp.Compile
import Snabb.Lib.Yang.Binary.RoundTrip
import Snabb.Lib.Yang.Data.Configuration
import Snabb.HybridAccess.Middleware.PacketDropper
import Snabb.HybridAccess.LoadBalancer.SkipLimit
import Snabb.HybridAccess.LoadBalancer.Weighted
import Snabb.HybridAccess.Middleware.Buffer
import Snabb.Lib.Fibers.NextEntry
import Snabb.Core.App.SharedPush
import Snabb.Lib.Poptrie.Lookup
import Snabb.HybridAccess.Overwrites.Order
import Snabb.Core.IncrementalChecksum
import Snabb.Lib.Lpm.Ip4Text
import Snabb.Lib.Lpm.Ip6Text
import Snabb.Lib.Lpm.RemoveAbsent
import Snabb.Lib.Lpm.DxrNative
import Snabb.Lib.Buffer
import Snabb.Apps.Ipv4.Fragment
import Snabb.Lib.CTable.Evict
import Snabb.Lib.Yang.Path
import Snabb.Lib.CTable.Saved
import Snabb.Lib.Yang.Integers
import Snabb.Lib.Backtracking
import Snabb.Lib.XsdRegexp.Termination
import Snabb.Lib.Ipsec.EspBounds
