import Xv6.Support.System
import Xv6.Support.Bytes
import Xv6.Support.MemCopy
import Xv6.Support.Disk
import Xv6.Support.Procs
import Xv6.Fs.Param
import Xv6.Fs.LogDisk
import Xv6.Fs.LogCrash
import Xv6.Fs.LogOp
import Xv6.Fs.LogCommit
import Xv6.Fs.LogSpace
import Xv6.Fs.Bio
import Xv6.Fs.LogCache
import Xv6.Support.DList
import Xv6.Fs.BioList
import Xv6.Support.Ring
import Xv6.Net.E1000Tx
import Xv6.Net.E1000Rx
import Xv6.Support.Chain
import Xv6.Net.Socket
import Xv6.Support.Cksum
import Xv6.Net.Mbuf
import Xv6.Net.Udp
import Xv6.Support.Bitmap
import Xv6.Fs.Layout
import Xv6.Fs.Balloc
import Xv6.Fs.Inode
import Xv6.Fs.Ownership
import Xv6.Fs.ReadWrite
import Xv6.Fs.FileMap
import Xv6.Fs.Contents
import Xv6.Kernel.String
import Xv6.Support.CircBuf
import Xv6.Kernel.PipeRw
import Xv6.Support.Records
import Xv6.Support.Refine
import Xv6.Fs.Dir
import Xv6.Fs.Path
import Xv6.Kernel.Copy
import Xv6.Net.SockRw
import Xv6.Kernel.Kalloc
import Xv6.Kernel.File
import Xv6.Net.SockAlloc
import Xv6.Kernel.FileInv
import Xv6.Kernel.Proc
import Xv6.Kernel.Sleep
import Xv6.Kernel.SysFile
import Xv6.Kernel.FdInv
import Xv6.Kernel.ProcTree
import Xv6.Fs.Icache
import Xv6.Kernel.Uvm
import Xv6.Kernel.UserCopy
import Xv6.Kernel.Sv39
import Xv6.Kernel.Sv39Free
import Xv6.Kernel.Sv39Build
import Xv6.Kernel.Memmove
import Xv6.Kernel.Spinlock
import Xv6.Net.Arp
import Xv6.Net.Rx
import Xv6.Net.MbufQ
import Xv6.Kernel.Console
import Xv6.Kernel.ConsoleSys
import Xv6.Kernel.Virtio
import Xv6.Kernel.SysPipe
import Xv6.User.Umalloc
import Xv6.User.Printf
import Xv6.User.Grep
import Xv6.User.Sh
