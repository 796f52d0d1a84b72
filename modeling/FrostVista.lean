import FrostVista.EasyFs.Holes
import FrostVista.EasyFs.InodeTable
import FrostVista.EasyFs.Listing
import FrostVista.Kernel.BlockCache
import FrostVista.Kernel.InodeCache
import FrostVista.Kernel.OpenPath
import FrostVista.Kernel.PipeEnds
import FrostVista.Kernel.ProcTable
import FrostVista.Kernel.Sigreturn
import FrostVista.Kernel.Slab
import FrostVista.Loongarch.TlbRefill
import FrostVista.Machine.FreeList
import FrostVista.Riscv.ExecSpace
import FrostVista.Riscv.Munmap
import FrostVista.Riscv.Permissions
import FrostVista.Tmpfs.Failure
import FrostVista.Tmpfs.Names
import FrostVista.Tmpfs.Readdir
