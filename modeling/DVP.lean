import DVP.Lib.Run
import DVP.Lib.Overwrite
import DVP.Lib.Circular
import DVP.Sosal.Types
import DVP.Sosal.Ring.Basic
import DVP.Sosal.Ring.Refinement
import DVP.Sosal.Queue.Basic
import DVP.Sosal.Queue.Counters
import DVP.Sosal.Queue.Concurrent
import DVP.Sosal.Fph.Basic
import DVP.Sosal.Cache.Basic
import DVP.Sosal.Fph.Refinement
import DVP.Sosal.Cache.Coherence
import DVP.Sosal.Cache.Runs
import DVP.Sosal.Cache.Bounds
import DVP.Lib.Chain
import DVP.Sosal.List.Basic
import DVP.Lib.SortedInsert
import DVP.Sosal.List.Spec
import DVP.Sosal.List.Sequence
import DVP.Sosal.Heap.Basic
import DVP.Lib.Tiling
import DVP.Sosal.Heap.Layout
import DVP.Sosal.Hash.Basic
import DVP.Sosal.Hash.Buckets
import DVP.Sosal.Hash.Refinement
import DVP.Sosal.Hash.Clean
import DVP.Sosal.Hash.Drain
import DVP.Sosal.Heap.Alloc
import DVP.Sosal.Heap.Coalesce
import DVP.Sosal.Heap.Free
import DVP.Sosal.Heap.Init
import DVP.Sosal.Heap.Placement
import DVP.Sosal.Heap.Runs
import DVP.Sosal.Heap.Stale
import DVP.Sosal.Heap.Fragments
import DVP.Sosal.Heap.BestFit
import DVP.Kgraph.Image
import DVP.Kgraph.ImageRoundTrip
import DVP.Sosal.Btreelist.Complete
import DVP.Kgraph.Rpc.Basic
import DVP.Kgraph.Rpc.Handles
import DVP.Kgraph.Rpc.Rollback
import DVP.VisionCam.Frame
import DVP.VisionCam.Packet
import DVP.VisionCam.RoundTrip
import DVP.VisionCam.Received
import DVP.Kgraph.GraphLock
import DVP.Kgraph.Teardown
import DVP.Lib.Fifo
import DVP.Lib.Schedule
import DVP.Sosal.RpcSocket.Basic
import DVP.Sosal.RpcSocket.Protocol
import DVP.Sosal.Threadpool.Basic
import DVP.Sosal.Threadpool.Invariant
import DVP.Sosal.Threadpool.Queue
import DVP.Sosal.Threadpool.Runs
import DVP.Kgraph.Boss
import DVP.Kgraph.Calls
import DVP.Kgraph.CallsApart
import DVP.Kgraph.LockBalance
import DVP.Kgraph.Translate
import DVP.Kgraph.TranslateCalls
import DVP.Kgraph.TranslateRemoval
import DVP.Lib.Custody
import DVP.VisionCam.SocketCam
import DVP.VisionCam.SocketPool
import DVP.VisionEngine.Conserved
import DVP.Sosal.Ini.Basic
import DVP.Sosal.Ini.Documents
import DVP.Sosal.Ini.Parse
import DVP.Lib.Search
import DVP.Sosal.Bitfield
import DVP.Sosal.Fph.Counters
import DVP.Lib.Grid
import DVP.Kgraph.ImageBuffer
import DVP.Kgraph.ImageLayout
import DVP.Kgraph.ImageSizes
import DVP.Kgraph.ImageAlloc
import DVP.Kgraph.ImagePatch
import DVP.Kgraph.Batches
import DVP.Lib.Sweep
import DVP.Kgraph.Selection
import DVP.Sosal.Allocator.Basic
import DVP.Sosal.Allocator.Virtual
import DVP.Sosal.Ini.Lines
import DVP.Sosal.Ini.Independent
import DVP.Kgraph.ImageCopy
import DVP.Lib.Transfer
import DVP.Kgraph.ImagePlaced
import DVP.Kgraph.ImageFill
import DVP.Kgraph.ImageCopySame
import DVP.Kgraph.ImageConvert
import DVP.Kgraph.ImageValidate
import DVP.Sosal.Image.Basic
import DVP.Sosal.Image.Bounds
import DVP.Sosal.Image.ConvertBounds
import DVP.Sosal.Image.Flow
import DVP.Sosal.Image.Leaks
import DVP.Sosal.Image.Diff
import DVP.Lib.Tally
import DVP.Sosal.Histogram
import DVP.Lib.Monitor
import DVP.Sosal.Event
import DVP.Sosal.Socket
import DVP.Sosal.Threadpool.Batch
import DVP.ImgFilter.Tap
import DVP.ImgFilter.Threaded
import DVP.Kgraph.TranslateCpu
import DVP.Sosal.Ini.Strings
import DVP.Lib.Stages
import DVP.VisionCam.Avi.Basic
import DVP.VisionCam.Avi.Walk
import DVP.VisionCam.Avi.Termination
import DVP.VisionCam.Avi.Structure
import DVP.Lib.Scanf
import DVP.Sosal.Pyuv
import DVP.Sosal.Deadline
import DVP.Lib.Fir
import DVP.ImgFilter.Kernel
import DVP.Lib.Mailbox
import DVP.Lib.Lockstep
import DVP.Kgm.WorkQueue
import DVP.Kgm.Moves
import DVP.Kgm.Ledger
import DVP.Kgm.Answered
import DVP.Kgm.Queues
import DVP.Kgm.Progress
import DVP.Kgm.Deinit
import DVP.Lib.Region
import DVP.Lib.Raster
import DVP.Lib.Arm.Machine
import DVP.Lib.Arm.Rules
import DVP.Lib.Arm.Walk
import DVP.Yuv.Routines
import DVP.Yuv.Groups
import DVP.Yuv.Colours
import DVP.Yuv.Walks
import DVP.Yuv.Pictures
import DVP.Yuv.Conversions
import DVP.Lib.Windows
import DVP.Kgm.CpuManager
import DVP.Remote.Basic
import DVP.Remote.Calls
import DVP.Remote.Proxy
import DVP.VisionCam.FileCam
import DVP.VisionCam.FilePool
import DVP.VisionCam.Replay
