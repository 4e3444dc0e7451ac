import Xv6.Param
import Xv6.Lib.Bytes
import Xv6.Lib.Txn
import Xv6.Lib.Simulation
import Xv6.Lib.Links
import Xv6.Log.Defs
import Xv6.Log.System
import Xv6.Log.Proofs.Admission
import Xv6.Log.Proofs.Control
import Xv6.Log.Proofs.Crash
import Xv6.Log.Proofs.Recovery
import Xv6.Bio.Defs
import Xv6.Bio.System
import Xv6.Bio.Proofs.Cache
import Xv6.LogCache.System
import Xv6.Bio.Proofs.Frame
import Xv6.LogCache.Proofs.Pins
import Xv6.LogCache.Proofs.Refine
import Xv6.LogCache.Proofs.Agree
import Xv6.Fs.Defs
import Xv6.Fs.Inode
import Xv6.Lib.Prog
import Xv6.Lib.Sparse
import Xv6.Fs.Proofs.Bitmap
import Xv6.Fs.Proofs.Bmap
import Xv6.Fs.Proofs.Write
import Xv6.Fs.Proofs.Trunc
import Xv6.Fs.Proofs.Read
import Xv6.Fs.Dir
import Xv6.Fs.Proofs.Dir
import Xv6.Fs.Proofs.Update
import Xv6.Fs.Proofs.Alloc
import Xv6.Fs.Proofs.Content
import Xv6.Lib.Ring
import Xv6.Pipe.Defs
import Xv6.Pipe.System
import Xv6.Pipe.Proofs.Fifo
import Xv6.Proc.Defs
import Xv6.Proc.System
import Xv6.Proc.Proofs.Table
import Xv6.Proc.Proofs.Pid
import Xv6.Proc.Proofs.Wait
import Xv6.Virtio.Defs
import Xv6.Virtio.System
import Xv6.Virtio.Proofs.Desc
import Xv6.Virtio.Proofs.Inv
import Xv6.Lib.Count
import Xv6.File.Defs
import Xv6.File.System
import Xv6.File.Proofs.Refs
import Xv6.File.Proofs.Calls
import Xv6.File.Proofs.Inv
import Xv6.Ns.Defs
import Xv6.Ns.System
import Xv6.Ns.Tree
import Xv6.Ns.Proofs.Table
import Xv6.Ns.Proofs.Calls
import Xv6.Console.Defs
import Xv6.Console.System
import Xv6.Console.Proofs.Queue
import Xv6.Console.Proofs.Runs
import Xv6.User.Proofs.Xargs
import Xv6.User.Umalloc
import Xv6.User.Proofs.Umalloc
import Xv6.File.Shared
import Xv6.File.Proofs.Shared
import Xv6.Vm.Walk
import Xv6.Vm.Copy
import Xv6.Vm.Proofs.Walk
import Xv6.Vm.Proofs.Copy
import Xv6.Vm.Proofs.Str
import Xv6.Lib.Copy
import Xv6.Str.Memmove
import Xv6.Str.Proofs.Memmove
import Xv6.User.Grep
import Xv6.User.Proofs.Grep
import Xv6.User.Printf
import Xv6.User.Proofs.Printf
import Xv6.Uart.Defs
import Xv6.Uart.System
import Xv6.Uart.Proofs.Fifo
import Xv6.User.Sh
import Xv6.User.Proofs.ShLex
import Xv6.User.Proofs.ShGrammar
import Xv6.User.Proofs.ShParse
