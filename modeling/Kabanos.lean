import Kabanos.Mm.Refcount
import Kabanos.Mm.Refine
import Kabanos.Mm.Fresh
import Kabanos.Mm.Cow
import Kabanos.Mm.Break
import Kabanos.Sched.TtyLocks
import Kabanos.Sched.SleepTime
import Kabanos.Sched.Aging
import Kabanos.Sched.Bursts
import Kabanos.Tty.Canonical
import Kabanos.Console.Bounds
import Kabanos.Vfs.Resolve
import Kabanos.Block.Partition
import Kabanos.Myfs.InodeTable
import Kabanos.Myfs.BlockMap
import Kabanos.Myfs.Layout
import Kabanos.Boot.Cycles
import Kabanos.Boot.Protected
import Kabanos.Net.Echo
import Kabanos.Vfs.InUse
import Kabanos.Net.Arp
import Kabanos.Net.Queues
import Kabanos.Klib.Cmdline
import Kabanos.Klib.Strtok
import Kabanos.Vi.Undo
import Kabanos.Vi.Bounds
import Kabanos.Mm.Atomic
import Kabanos.Mm.ElfReads
import Kabanos.Mm.ElfBytes
import Kabanos.Mm.ArgStack
import Kabanos.Mm.Uaccess
import Kabanos.Vfs.Select
import Kabanos.Fat.Find
import Kabanos.Fat.Read
