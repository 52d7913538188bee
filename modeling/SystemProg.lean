import SystemProg.Shell.Display
import SystemProg.Yashd.Dispatch
import SystemProg.Yashd.Orphans
import SystemProg.Yashd.Doomed
import SystemProg.Yashd.Deadlock
import SystemProg.Yashd.Audit
import SystemProg.Yashd.ClientRun
import SystemProg.Yash.Children
import SystemProg.Yash.Marks
import SystemProg.Yash.Stdin
import SystemProg.Pintos.Safety
import SystemProg.Pintos.DirMap
import SystemProg.Pintos.OpenFiles
import SystemProg.Pintos.Archive
import SystemProg.Pintos.Heap
import SystemProg.Threads.Locks
import SystemProg.Pintos.Elf
import SystemProg.Pintos.CommandLine
import SystemProg.Pintos.Memmove
import SystemProg.Pintos.ArchiveNames
import SystemProg.Pintos.PackedBitmap
import SystemProg.Pintos.Partition
import SystemProg.Pintos.Hash
import SystemProg.Threads.Intq
import SystemProg.Pintos.Arithmetic
import SystemProg.Pintos.Random
import SystemProg.Pintos.Sort
import SystemProg.Pintos.ListOps
import SystemProg.Pintos.PrintfInteger
