import Vlstp.Framework.Reach
import Vlstp.Framework.Fallible
import Vlstp.Framework.Heap
import Vlstp.Framework.Footprint
import Vlstp.Framework.Bytes
import Vlstp.Framework.BitSeq
import Vlstp.Framework.Select
import Vlstp.Framework.SerialNumber
import Vlstp.Framework.MaxRuns
import Vlstp.Framework.Ring
import Vlstp.Framework.Rings
import Vlstp.Framework.SlotLists
import Vlstp.Framework.SlotPaths
import Vlstp.Framework.Tally
import Vlstp.Framework.Areas
import Vlstp.Bitops
import Vlstp.Bitops.TestAnd
import Vlstp.Bitops.Searches
import Vlstp.Bitops.ForEach
import Vlstp.Bitmap
import Vlstp.Bitmap.Loops
import Vlstp.Bitmap.UnusedBits
import Vlstp.Bitmap.Shifts
import Vlstp.Bitmap.ValidBits
import Vlstp.Bitmap.FastPaths
import Vlstp.Bitmap.Ranges
import Vlstp.Bitmap.Ordinals
import Vlstp.Bitmap.ZeroArea
import Vlstp.Bitmap.Allocation
import Vlstp.Bitmap.Fold
import Vlstp.Bitmap.Programs
import Vlstp.Serial
import Vlstp.Serial.Comparison
import Vlstp.ListHead
import Vlstp.ListHead.Operations
import Vlstp.ListHead.Runs
import Vlstp.ListHead.Iteration
import Vlstp.Hlist
import Vlstp.Hlist.Runs
import Vlstp.Hlist.Iteration
import Vlstp.Jhash
import Vlstp.Jhash.Words
import Vlstp.Jhash.Balance
import Vlstp.Jhash.Unaligned
import Vlstp.Hash
import Vlstp.Tsnmap.Defs
import Vlstp.Tsnmap.Window
import Vlstp.Tsnmap.Represents
import Vlstp.Tsnmap.Calls
import Vlstp.Tsnmap.ReceiveSet
import Vlstp.Tsnmap.MarkCheck
import Vlstp.Tsnmap.Contents
import Vlstp.Tsnmap.Bounds
import Vlstp.Tsnmap.Growth
import Vlstp.Tsnmap.Translation
import Vlstp.Tsnmap.Ownership
import Vlstp.Tsnmap.GapBlocks
import Vlstp.Tsnmap.History
import Vlstp.Tsnmap.Duplicates
import Vlstp.Timer.Defs
import Vlstp.Timer.Calls
import Vlstp.Timer.AbstractQueue
import Vlstp.Timer.Queue
import Vlstp.Timer.Callbacks
import Vlstp.Timer.Refinement
import Vlstp.Timer.Start
import Vlstp.Timer.QueueRuns
import Vlstp.Timer.Lifecycle
import Vlstp.Timer.Dispatch
import Vlstp.Timer.Rearm
import Vlstp.Timer.Cancel
import Vlstp.Timer.EventLoop
import Vlstp.SocketLayer
import Vlstp.SocketLayer.Connection
import Vlstp.SocketLayer.FdSet
import Vlstp.SocketLayer.Descriptors
import Vlstp.Refcount
import Vlstp.Counter
import Vlstp.SortedInsertion
