import InDevOS.Lib.Bytes
import InDevOS.Lib.Chain
import InDevOS.Lib.Pieces
import InDevOS.Lib.Ring
import InDevOS.Mem.Boot
import InDevOS.Mem.Mmap
import InDevOS.Mem.UnmapRange
import InDevOS.Mem.SharedFile
import InDevOS.Linux.Timerfd
import InDevOS.Storage.Bcache
import InDevOS.Storage.Sectors
import InDevOS.Mem.Isolation
import InDevOS.Fat32.Clusters
import InDevOS.Fat32.FatSync
import InDevOS.Ipc.Futex
import InDevOS.Ipc.Pipe
import InDevOS.Ipc.UnixGraph
import InDevOS.Ipc.ControlMessages
import InDevOS.Ipc.Eventfd
import InDevOS.Net.Duplicates
import InDevOS.Net.IpReceive
import InDevOS.Net.Tcp.Checksum
import InDevOS.Net.Tcp.Receive
import InDevOS.Net.Tcp.Handshake
import InDevOS.Net.Tcp.Ledger
import InDevOS.Net.Tcp.Queue
import InDevOS.Net.Tcp.Reap
import InDevOS.Net.Tcp.Tiling
import InDevOS.Tmpfs.Cut
import InDevOS.Tmpfs.Failed
import InDevOS.Tmpfs.TreeRun
import InDevOS.Vfs.Mount
import InDevOS.Net.Icmp6
import InDevOS.Net.Arp
import InDevOS.Png.Filter
import InDevOS.Epoll.Fairness
import InDevOS.Sched.Kpoll
import InDevOS.Ext4.Resolution
import InDevOS.Ext4.Checksum
import InDevOS.Users.Perm
import InDevOS.Mem.Protect
import InDevOS.Process.Wait
import InDevOS.Wm.Lifetime
import InDevOS.Fd.Table
import InDevOS.Audio.Wav
import InDevOS.Net.NdOptions
import InDevOS.Net.Dhcp
