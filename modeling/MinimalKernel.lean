import MinimalKernel.E820.Table
import MinimalKernel.Fs.FdTableRuns
import MinimalKernel.Format.PutDec
import MinimalKernel.Kconfig.Compare
import MinimalKernel.Klist.KlistRuns
import MinimalKernel.Locking.MutexRuns
import MinimalKernel.Locking.RwsemRuns
import MinimalKernel.Mm.BootPages
import MinimalKernel.Mm.FileFault
import MinimalKernel.Mm.ForkMemory
import MinimalKernel.Mm.MemblockAlloc
import MinimalKernel.Mm.MemblockTrim
import MinimalKernel.Mm.PageReuse
import MinimalKernel.Mm.RegistryRuns
import MinimalKernel.Mm.RmapRuns
import MinimalKernel.Mm.SlabReuse
import MinimalKernel.Mm.UnmappedArea
import MinimalKernel.Mm.VmapLowest
import MinimalKernel.Resource.Runs
import MinimalKernel.Time.Monotonic
import MinimalKernel.Tty.FlipBufferRuns
import MinimalKernel.Tty.Utf8
import MinimalKernel.Vfs.Mountpoint
import MinimalKernel.Vfs.RcuAgreement
