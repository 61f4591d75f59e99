import RingBuf.Conc.Prog
import RingBuf.Conc.Machine
import RingBuf.Conc.Protocol
import RingBuf.Memory
import RingBuf.Mpmc.Code
import RingBuf.Mpmc.Slots
import RingBuf.Mpmc.Protocol
import RingBuf.Conc.Claims
import RingBuf.Mpmc.Invariant
import RingBuf.Mpmc.Contents
import RingBuf.Mpmc.Fifo
import RingBuf.Mpmc.Exclusion
import RingBuf.Mpsc.Code
import RingBuf.Mpsc.Protocol
import RingBuf.Mpsc.Invariant
import RingBuf.Contents
import RingBuf.Mpsc.Contents
import RingBuf.Mpsc.Fifo
import RingBuf.Window
import RingBuf.Spsc.Code
import RingBuf.Spsc.Protocol
import RingBuf.Spsc.Invariant
import RingBuf.Spsc.Fifo
import RingBuf.Spsc.TakeOver
import RingBuf.Spsc.TwoRings
import RingBuf.Conc.Monitor
import RingBuf.Block.Code
import RingBuf.Block.Protocol
import RingBuf.Block.Invariant
import RingBuf.Block.Fifo
import RingBuf.Block.Alone
import RingBuf.Block.Wakeup
import RingBuf.Conc.Wrap
import RingBuf.Wrapper.PopWCb
import RingBuf.Wrapper.Delivery
import RingBuf.Bytes
import RingBuf.Setup.Layout
import RingBuf.Setup.System
import RingBuf.Setup.Code
import RingBuf.Setup.Exits
import RingBuf.Setup.Errors
import RingBuf.Setup.Leaks
import RingBuf.Setup.Writes
import RingBuf.Setup.Clobber
import RingBuf.Setup.Attach
import RingBuf.Setup.Delete
import RingBuf.Conc.Lockstep
import RingBuf.Mpmc.Unbounded
import RingBuf.RefCount
import RingBuf.Wrapper.Handle
import RingBuf.Block.Leave
import RingBuf.Mpsc.Alone
import RingBuf.Setup.Capacity
import RingBuf.Mpsc.Status
import RingBuf.Setup.Unmap
import RingBuf.Conc.Product
import RingBuf.Conc.Trail
import RingBuf.Mpmc.Alone
import RingBuf.Mpsc.Cache
import RingBuf.Quiescent
import RingBuf.Mpmc.Codes
import RingBuf.Mpsc.Counts
import RingBuf.Mpsc.Codes
import RingBuf.Conc.Watch
import RingBuf.Query.Code
import RingBuf.Query.Answers
import RingBuf.Query.Range
import RingBuf.Conc.History
import RingBuf.Conc.Queue
import RingBuf.Callbacks
import RingBuf.Mpmc.Linear
import RingBuf.Mpsc.Linear
import RingBuf.Spsc.Linear
import RingBuf.Conc.Client
import RingBuf.Harness.Code
import RingBuf.Harness.Known
import RingBuf.Harness.Pushes
import RingBuf.Harness.Delivery
import RingBuf.Harness.Sound
import RingBuf.Block.Linear
import RingBuf.Harness.Rings
import RingBuf.Conc.Refine
import RingBuf.Image.Code
import RingBuf.Image.Created
import RingBuf.Image.Programs
import RingBuf.Image.Rings
import RingBuf.Image.Fifo
import RingBuf.Image.Creating
