import Xv6.Lib.Crash
import Xv6.Lib.LittleEndian
import Xv6.Lib.Wrap
import Xv6.Lib.DList
import Xv6.Lib.Bitmap
import Xv6.Lib.ExceptOk
import Xv6.Lib.Regex
import Xv6.Lib.Copy
import Xv6.Lib.Monitor
import Xv6.Lib.Format
import Xv6.Lock.Sleep
import Xv6.Lock.Spin
import Xv6.Kernel.String
import Xv6.Log.Recovery
import Xv6.Log.CrashAtomicity
import Xv6.Log.Admission
import Xv6.Pipe.Fifo
import Xv6.Pipe.Sleep
import Xv6.Bio.Cache
import Xv6.Bio.Coherence
import Xv6.Bio.Ide
import Xv6.Log.Pinning
import Xv6.File.Account
import Xv6.File.Refcount
import Xv6.File.PipeLife
import Xv6.Inode.Cache
import Xv6.Inode.Refcount
import Xv6.Inode.Freeing
import Xv6.Fs.Mkfs
import Xv6.Fs.Bmap
import Xv6.Fs.Namespace
import Xv6.Fs.Footprint
import Xv6.Fs.Dirs
import Xv6.Fs.Path
import Xv6.Fs.FileBytes
import Xv6.Fs.Truncate
import Xv6.Log.Sleep
import Xv6.Fs.LogBudget
import Xv6.Proc.Table
import Xv6.Proc.Tree
import Xv6.Proc.Pid
import Xv6.Proc.Wait
import Xv6.Proc.Sched
import Xv6.Proc.Vm
import Xv6.Proc.Uvm
import Xv6.Proc.Mmu
import Xv6.Proc.Kvm
import Xv6.Proc.Copyout
import Xv6.Proc.Exec
import Xv6.Proc.Syscall
import Xv6.Console.Input
import Xv6.Console.Read
import Xv6.Console.Printint
import Xv6.Console.Printf
import Xv6.Net.Arp
import Xv6.User.Umalloc
import Xv6.User.Grep
import Xv6.User.Sh
import Xv6.User.ShLex
import Xv6.User.ShGrammar
import Xv6.User.ShCmd
import Xv6.Boot.Mp
import Xv6.Boot.Bootmain
