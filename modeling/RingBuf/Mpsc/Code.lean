import RingBuf.Memory

/-!
# `RingBuf_Mpsc.c`

The functions of the multi-producer, single-consumer ring, and the system of any number of
producers with one consumer at a time. A producer takes a position by a compare-exchange on
`head_`, after comparing it with `tail_`; the slot's status word says when its copy is complete.
The consumer keeps the last head it has seen in the thread-local `local_head`, which is shared by
all Mpsc rings that the thread uses.
-/

namespace RingBuf

open Conc Word

namespace Mpsc

/-- `Push_MpscRingBuf`, where `args` are the `size` bytes to push. -/
def pushMpscRingBuf (r : Ring SizeT) (args : List Byte) : RingProg SizeT Int :=
  if args.length > r.objSize then pure ringbufPushSizeTooLarge
  else do
    let currHead ← loadHead
    let currTail ← loadTail
    if currHead - currTail ≥ r.objNum then pure ringbufFull
    else do
      let claimed ← casHead currHead (currHead + 1)
      if claimed then do
        let idx := currHead &&& r.mask
        memcpyTo (r.addr idx) args
        storeSlot idx slotValid
        pure (toSsize currHead)
      else pure ringbufContention

/-- `Pop_MpscRingBuf`, with the bytes it copies into `buf`. -/
def popMpscRingBuf (r : Ring SizeT) (size : Nat) : RingProg SizeT (Int × List Byte) :=
  if size > r.objSize then pure (ringbufPopSizeTooLarge, [])
  else do
    let currTail ← loadTail
    let empty ← popEmpty currTail
    if empty then pure (ringbufEmpty, [])
    else do
      let idx := currTail &&& r.mask
      let slotStat ← loadSlot idx
      if slotStat &&& slotEmpty ≠ 0 then pure (ringbufSlotWritingData, [])
      else if slotStat &&& slotUnknown ≠ 0 then do
        storeSlot idx slotEmpty
        storeTail (currTail + 1)
        pure (ringbufSlotStatUnknown, [])
      else do
        let buf ← memcpyFrom (r.addr idx) size
        storeSlot idx slotEmpty
        storeTail (currTail + 1)
        pure (toSsize currTail, buf)

/-- `Pop_w_cb_MpscRingBuf` -/
def popWCbMpscRingBuf (r : Ring SizeT) (cb : Callback r.objSize) : RingProg SizeT Int := do
  let currTail ← loadTail
  let empty ← popEmpty currTail
  if empty then pure ringbufEmpty
  else do
    let idx := currTail &&& r.mask
    let slotStat ← loadSlot idx
    if slotStat &&& slotEmpty ≠ 0 then pure ringbufSlotWritingData
    else if slotStat &&& slotUnknown ≠ 0 then do
      storeSlot idx slotEmpty
      storeTail (currTail + 1)
      pure ringbufSlotStatUnknown
    else do
      let rc ← callCb cb (some (r.addr idx))
      storeSlot idx slotEmpty
      storeTail (currTail + 1)
      pure rc

/-! ## The system -/

/-- A call on a ring with objects of `n` bytes. A pop comes with what the other rings of its
thread have left in `local_head` since (`none` when they left it alone). -/
inductive Call (n : Nat)
  | push (args : List Byte)
  | pop (others : Option SizeT) (size : Nat)
  | popWCb (others : Option SizeT) (cb : Callback n)

/-- A call of the consumer. -/
def Call.pops {n : Nat} : Call n → Bool
  | .push _ => false
  | _ => true

/-- What the thread did with other rings before the call. -/
def otherRings : Option SizeT → RingProg SizeT Unit
  | none => pure ()
  | some v => setLocalHead v

/-- The program of a call. -/
def body (r : Ring SizeT) : Call r.objSize → RingProg SizeT Ret
  | .push args => do
    let rc ← pushMpscRingBuf r args
    pure ⟨rc, []⟩
  | .pop others size => do
    otherRings others
    let out ← popMpscRingBuf r size
    pure ⟨out.1, out.2⟩
  | .popWCb others cb => do
    otherRings others
    let rc ← popWCbMpscRingBuf r cb
    pure ⟨rc, []⟩

/-- Any number of producers, and one consumer at a time. -/
def sys (r : Ring SizeT) (Tid : Type) [DecidableEq Tid] :
    Sys (Op SizeT) Op.Res Empty Tid (Call r.objSize) Ret (Mem SizeT Tid) :=
  .ofFun exec (body r) fun cur _ c => c.pops = true → ∀ u c', cur u = some c' → c'.pops = false

end Mpsc

end RingBuf
