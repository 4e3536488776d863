import JamesM.Common
import JamesM.Lib.Word32
import JamesM.SortedArray
import JamesM.Frames
import JamesM.Paging.Def
import JamesM.Boot.Def
import JamesM.Paging.Placement
import JamesM.Paging.Walk
import JamesM.Paging.Ownership
import JamesM.Boot.Identity
import JamesM.Heap.Isolation
import JamesM.Heap.BestFit
import JamesM.Heap.Fit
import JamesM.Heap.Pages
import JamesM.Heap.Retry
import JamesM.Heap.Extend
import JamesM.Heap.Protection
import JamesM.Heap.Requests
import JamesM.Heap.Coalesce
import JamesM.Heap.Footers
import JamesM.Heap.Access
import JamesM.Monitor
import JamesM.Initrd
import JamesM.InitrdWalk
import JamesM.SortedRuns
import JamesM.SortedStorage
import JamesM.Comparators
import JamesM.Boot.Bitset
import JamesM.Heap.Roundings
import JamesM.TarProgress
import JamesM.InitrdRead
import JamesM.InitrdList
import JamesM.Heap.Mapped
import JamesM.Heap.Reentry
import JamesM.Boot.Frame
import JamesM.Boot.Virtual
import JamesM.Boot.Main
import JamesM.Interrupt.Dispatch
import JamesM.Interrupt.Timer
