import RingBuf.Memory

/-!
# `RingBuf_Mpmc.c`

The three functions of the multi-producer, multi-consumer ring, and the system of threads that
call them in any mix. A producer or consumer reads its counter and the slot word, compares the
two by the sign of their difference, and takes the position with a compare-exchange; the slot
word it stores after the copy hands the slot over.

The functions are written over any `Word`: with `SizeT` they are the program, with `Nat` they
are the same ring with counters that never wrap.
-/

namespace RingBuf

open Conc Word

namespace Mpmc

variable {W : Type} [Word W]

/-- `Push_MpmcRingBuf`, where `args` are the `size` bytes to push. -/
def pushMpmcRingBuf (r : Ring W) (args : List Byte) : RingProg W Int :=
  if args.length > r.objSize then pure ringbufPushSizeTooLarge
  else do
    let expectedHead ← loadHead
    let idx := expectedHead &&& r.mask
    let seq ← loadSlot idx
    let dif := Word.dif seq expectedHead
    if dif > 0 then pure ringbufContention
    else if dif < 0 then pure ringbufFull
    else do
      let desired := expectedHead + 1
      let claimed ← casHead expectedHead desired
      if claimed then do
        memcpyTo (r.addr idx) args
        storeSlot idx (expectedHead + 1)
        pure (toSsize expectedHead)
      else pure ringbufContention

/-- `Pop_MpmcRingBuf`, with the bytes it copies into `buf`. -/
def popMpmcRingBuf (r : Ring W) (size : Nat) : RingProg W (Int × List Byte) :=
  if size > r.objSize then pure (ringbufPopSizeTooLarge, [])
  else do
    let expectedTail ← loadTail
    let idx := expectedTail &&& r.mask
    let seq ← loadSlot idx
    let dif := Word.dif seq (expectedTail + 1)
    if dif > 0 then pure (ringbufContention, [])
    else if dif < 0 then pure (ringbufEmpty, [])
    else do
      let desired := expectedTail + 1
      let claimed ← casTail expectedTail desired
      if claimed then do
        let buf ← memcpyFrom (r.addr idx) size
        storeSlot idx (expectedTail + r.objNum)
        pure (toSsize expectedTail, buf)
      else pure (ringbufContention, [])

/-- `Pop_w_cb_MpmcRingBuf` -/
def popWCbMpmcRingBuf (r : Ring W) (cb : Callback r.objSize) : RingProg W Int := do
  let expectedTail ← loadTail
  let idx := expectedTail &&& r.mask
  let seq ← loadSlot idx
  let dif := Word.dif seq (expectedTail + 1)
  if dif > 0 then pure ringbufContention
  else if dif < 0 then pure ringbufEmpty
  else do
    let desired := expectedTail + 1
    let claimed ← casTail expectedTail desired
    if claimed then do
      let rc ← callCb cb (some (r.addr idx))
      storeSlot idx (expectedTail + r.objNum)
      pure rc
    else pure ringbufContention

/-! ## The system -/

/-- A call on a ring with objects of `n` bytes. -/
inductive Call (n : Nat)
  | push (args : List Byte)
  | pop (size : Nat)
  | popWCb (cb : Callback n)

/-- The program of a call. -/
def body (r : Ring W) : Call r.objSize → RingProg W Ret
  | .push args => do
    let rc ← pushMpmcRingBuf r args
    pure ⟨rc, []⟩
  | .pop size => do
    let out ← popMpmcRingBuf r size
    pure ⟨out.1, out.2⟩
  | .popWCb cb => do
    let rc ← popWCbMpmcRingBuf r cb
    pure ⟨rc, []⟩

/-- Any number of threads, each calling any of the functions at any time. -/
def sys (r : Ring W) (Tid : Type) [DecidableEq Tid] :
    Sys (Op W) Op.Res Empty Tid (Call r.objSize) Ret (Mem W Tid) :=
  .ofFun exec (body r) fun _ _ _ => True

end Mpmc

end RingBuf
