import Kil0yOS.Core.ChildExit
import Kil0yOS.Core.FutexRuns
import Kil0yOS.Core.LnxDispatch
import Kil0yOS.Core.Tty
import Kil0yOS.Drivers.Blkdev
import Kil0yOS.Ext2.Consistency
import Kil0yOS.Ext2.FileRead
import Kil0yOS.Ext2.Geometry
import Kil0yOS.Files.RefCounts
import Kil0yOS.Fs.ClusterOwnership
import Kil0yOS.Mm.AccessRuns
import Kil0yOS.Mm.HeapSizes
import Kil0yOS.Mm.PmmStats
import Kil0yOS.Mm.UnmapExact
import Kil0yOS.Mm.UserStore
import Kil0yOS.Net.TcpEndToEnd
import Kil0yOS.Net.TcpShift
import Kil0yOS.Pkg.NodeTree
import Kil0yOS.Pkg.PathSafety
import Kil0yOS.Pkg.Sha256
import Kil0yOS.Pkg.TarRoundTrip
import Kil0yOS.Sched.QueueIntegrity
import Kil0yOS.Sched.TimedWaits
import Kil0yOS.Unix.Lifetime
import Kil0yOS.Vfs.Getdents
import Kil0yOS.Vfs.MountInverse
import Kil0yOS.Vfs.Sharing
import Kil0yOS.Vfs.TreeRuns
import Kil0yOS.Zstd.BitOrder
import Kil0yOS.Zstd.StreamErrors
