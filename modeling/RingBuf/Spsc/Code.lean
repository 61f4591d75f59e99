import RingBuf.Contents

/-!
# `RingBuf_Spsc.c`

The functions of the single-producer, single-consumer ring, and the system of one producer and
one consumer thread. Both sides keep the last value of the other side's counter that they have
seen, in the thread-local `local_tail` and `local_head`. An element is pushed or popped by a
copy, or in place between a `Begin_` call that returns the slot and an `End_` call that advances
the counter.
-/

namespace RingBuf

open Conc Word

namespace Spsc

/-- The full test of the two push functions: `local_tail` is compared with the head, and refreshed
from `tail_` when they are `objNum_` apart. -/
def pushFull (r : Ring SizeT) (currHead : SizeT) : RingProg SizeT Bool := do
  let localTail ← getLocalTail
  if currHead - localTail ≥ r.objNum then do
    let tail ← loadTail
    setLocalTail tail
    pure (currHead - tail ≥ r.objNum)
  else pure false

/-- `Begin_push_SpscRingBuf`, `none` for `NULL`. -/
def beginPushSpscRingBuf (r : Ring SizeT) : RingProg SizeT (Option Nat) := do
  let currHead ← loadHead
  let full ← pushFull r currHead
  if full then pure none
  else pure (some (r.addr (currHead &&& r.mask)))

/-- `End_push_SpscRingBuf` -/
def endPushSpscRingBuf : RingProg SizeT Unit := do
  let currHead ← loadHead
  storeHead (currHead + 1)

/-- `Begin_pop_SpscRingBuf`, `none` for `NULL`. -/
def beginPopSpscRingBuf (r : Ring SizeT) : RingProg SizeT (Option Nat) := do
  let currTail ← loadTail
  let empty ← popEmpty currTail
  if empty then pure none
  else pure (some (r.addr (currTail &&& r.mask)))

/-- `End_pop_SpscRingBuf` -/
def endPopSpscRingBuf : RingProg SizeT Unit := do
  let currTail ← loadTail
  storeTail (currTail + 1)

/-- `Push_SpscRingBuf`, where `args` are the `size` bytes to push. -/
def pushSpscRingBuf (r : Ring SizeT) (args : List Byte) : RingProg SizeT Int :=
  if args.length > r.objSize then pure ringbufPushSizeTooLarge
  else do
    let currHead ← loadHead
    let full ← pushFull r currHead
    if full then pure ringbufFull
    else do
      let idx := currHead &&& r.mask
      memcpyTo (r.addr idx) args
      storeHead (currHead + 1)
      pure (toSsize currHead)

/-- `Pop_SpscRingBuf`, with the bytes it copies into `buf`. -/
def popSpscRingBuf (r : Ring SizeT) (size : Nat) : RingProg SizeT (Int × List Byte) :=
  if size > r.objSize then pure (ringbufPopSizeTooLarge, [])
  else do
    let currTail ← loadTail
    let empty ← popEmpty currTail
    if empty then pure (ringbufEmpty, [])
    else do
      let idx := currTail &&& r.mask
      let buf ← memcpyFrom (r.addr idx) size
      storeTail (currTail + 1)
      pure (toSsize currTail, buf)

/-! ## The system -/

/-- Code that writes bytes into an object, here the object at `a`. -/
def writeObj {n : Nat} (a : Nat) : List (Fin n × Byte) → RingProg SizeT Unit
  | [] => pure ()
  | (j, b) :: ws => do
    .op (.writeByte (a + j) b) .ret
    writeObj a ws

/-- A use of a ring with objects of `n` bytes: a push or pop by copy, or the code of a thread from
a `Begin_` call on, which writes or reads the slot in place and then calls `End_` or not. -/
inductive Call (n : Nat)
  | push (args : List Byte)
  | place (ws : List (Fin n × Byte)) (commit : Bool)
  | pop (size : Nat)
  | take (read : Prog (Fin n) (fun _ => Byte) Empty Bool)

/-- A use by the producer. -/
def Call.pushes {n : Nat} : Call n → Bool
  | .push _ | .place _ _ => true
  | _ => false

/-- What comes of it: the return code of a push or pop with the bytes left in the caller's
buffer, `NULL` from a `Begin_` call, or a section that has called `End_` or not. -/
inductive Out
  | code (rc : Int) (buf : List Byte)
  | null
  | done (ended : Bool)
  deriving DecidableEq

/-- The program of a use. -/
def body (r : Ring SizeT) : Call r.objSize → RingProg SizeT Out
  | .push args => do
    let rc ← pushSpscRingBuf r args
    pure (.code rc [])
  | .place ws commit => do
    let p ← beginPushSpscRingBuf r
    match p with
    | none => pure .null
    | some a => do
      writeObj a ws
      if commit then do
        endPushSpscRingBuf
        pure (.done true)
      else pure (.done false)
  | .pop size => do
    let out ← popSpscRingBuf r size
    pure (.code out.1 out.2)
  | .take read => do
    let p ← beginPopSpscRingBuf r
    match p with
    | none => pure .null
    | some a => do
      let commit ← readObj a read
      if commit then do
        endPopSpscRingBuf
        pure (.done true)
      else pure (.done false)

/-- One producer thread and one consumer thread. -/
def sys (r : Ring SizeT) {Tid : Type} [DecidableEq Tid] (producer consumer : Tid) :
    Sys (Op SizeT) Op.Res Empty Tid (Call r.objSize) Out (Mem SizeT Tid) :=
  .ofFun exec (body r) fun _ t c => t = if c.pushes then producer else consumer

/-! ## What a use produces -/

/-- The element that the writes `ws` make. -/
def written {n : Nat} (ws : List (Fin n × Byte)) : Elem :=
  ws.foldl (fun e w => e.put w.1 w.2) fun _ => none

theorem written_take_succ {n : Nat} {ws : List (Fin n × Byte)} {j : Nat} {w : Fin n × Byte}
    (hw : ws[j]? = some w) :
    written (ws.take (j + 1)) = (written (ws.take j)).put w.1 w.2 := by
  rw [List.take_add_one, hw]
  simp [written]

/-- The bytes of the element after the first `j` writes. -/
def Call.part {n : Nat} : Call n → Nat → Elem
  | .push args, j => .ofList (args.take j)
  | .place ws _, j => written (ws.take j)
  | _, _ => fun _ => none

/-- The number of writes. -/
def Call.writes {n : Nat} : Call n → Nat
  | .push args => args.length
  | .place ws _ => ws.length
  | _ => 0

/-- The bytes a use puts into its element. -/
def Call.elem {n : Nat} (c : Call n) : Elem := c.part c.writes

theorem Call.part_zero {n : Nat} (c : Call n) : c.part 0 = fun _ => none := by
  cases c with
  | push args => exact Elem.ofList_nil
  | _ => rfl

theorem Call.elem_push {n : Nat} (args : List Byte) :
    (Call.push args : Call n).elem = .ofList args := by
  show Elem.ofList (args.take args.length) = _
  rw [List.take_length]

theorem Call.elem_place {n : Nat} (ws : List (Fin n × Byte)) (commit : Bool) :
    (Call.place ws commit).elem = written ws := by
  show written (ws.take ws.length) = _
  rw [List.take_length]

end Spsc

end RingBuf
