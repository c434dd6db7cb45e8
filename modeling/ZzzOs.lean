import ZzzOs.Mm.Memblock.Ranges
import ZzzOs.Mm.Memblock.Alloc
import ZzzOs.Mm.Slab.DoubleFree
import ZzzOs.Mm.Kmalloc.Backing
import ZzzOs.Mm.Pgtbl.Failure
import ZzzOs.Mm.Mmap.Result
import ZzzOs.Mm.Space.Protect
import ZzzOs.Mm.Space.Unmap
import ZzzOs.Sched.Refcount
import ZzzOs.Fs.Ext2.BlockMap
import ZzzOs.Fs.Vfs.Balance
import ZzzOs.Fs.Vfs.Names
import ZzzOs.Fs.Fd.Calls
import ZzzOs.Fs.Ext2.InodeRecord
import ZzzOs.Fs.Block.Partition
import ZzzOs.Fs.Pagecache.Release
import ZzzOs.Fs.Fd.LastRef
import ZzzOs.Fs.Ext2.Dir.Untrusted
import ZzzOs.Sched.Rr.Run
import ZzzOs.Sched.Wait.Run
import ZzzOs.Sched.Fork.Tid
import ZzzOs.Fs.Exec.Resources
import ZzzOs.Sched.Fork.Create
import ZzzOs.Sched.Workqueue
import ZzzOs.Sched.Mutex
import ZzzOs.Signal.Exec
import ZzzOs.Printk.Console
import ZzzOs.Time.Clock
