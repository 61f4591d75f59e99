import RingBuf.Contents
import RingBuf.Conc.Monitor

/-!
# `RingBuf_Block.c`

The blocking ring: plain counters under a mutex, with a condition variable for each direction. A
push waits in a loop as long as the ring is full, a pop as long as it is empty; both loops are
labels here. What the surroundings may do is wake a sleeping thread for no reason.
-/

namespace RingBuf

open Conc Word LawfulWord

namespace Block

/-- The condition variables. -/
inductive Cond
  | writeable
  | readable
  deriving DecidableEq

/-- The changing part of `BRingBuf_t`. -/
structure BMem (Tid : Type) where
  head : SizeT
  tail : SizeT
  buffer : Nat → Byte
  mtx : Monitor Cond Tid

/-- Memory full of zeros. -/
def BMem.zero {Tid : Type} : BMem Tid := ⟨0, 0, fun _ => 0, .new⟩

/-- What `get_block_buf` stores into a new ring, over memory with any content. -/
def getBlockBuf {Tid : Type} (m : BMem Tid) : BMem Tid :=
  { m with
    mtx := .new
    head := 0
    tail := 0 }

/-- The operations. `pthread_cond_wait` is `sleep` followed by `relock`. -/
inductive Op
  | lock
  | unlock
  | sleep (c : Cond)
  | relock (c : Cond)
  | signal (c : Cond)
  | getHead
  | getTail
  | setHead (v : SizeT)
  | setTail (v : SizeT)
  | readByte (a : Nat)
  | writeByte (a : Nat) (b : Byte)

/-- What an operation answers. -/
@[reducible] def Op.Res : Op → Type
  | .getHead | .getTail => SizeT
  | .readByte _ => Byte
  | _ => Unit

variable {Tid : Type} [DecidableEq Tid]

/-- The effect of an operation of thread `t`. Taking the mutex is possible only when it is free. -/
def Exec (t : Tid) : (o : Op) → BMem Tid → o.Res → BMem Tid → Prop
  | .lock, m, _, m' => ∃ mtx, m.mtx.Lock t mtx ∧ m' = { m with mtx := mtx }
  | .unlock, m, _, m' => m' = { m with mtx := m.mtx.unlock }
  | .sleep c, m, _, m' => m' = { m with mtx := m.mtx.sleep t c }
  | .relock _, m, _, m' => ∃ mtx, m.mtx.Relock t mtx ∧ m' = { m with mtx := mtx }
  | .signal c, m, _, m' => ∃ mtx, m.mtx.Signal c mtx ∧ m' = { m with mtx := mtx }
  | .getHead, m, x, m' => x = m.head ∧ m' = m
  | .getTail, m, x, m' => x = m.tail ∧ m' = m
  | .setHead v, m, _, m' => m' = { m with head := v }
  | .setTail v, m, _, m' => m' = { m with tail := v }
  | .readByte a, m, x, m' => x = m.buffer a ∧ m' = m
  | .writeByte a b, m, _, m' => m' = { m with buffer := Function.update m.buffer a b }

/-- A sleeping thread may wake up by itself. -/
def Env (m m' : BMem Tid) : Prop := ∃ mtx, m.mtx.Wake mtx ∧ m' = { m with mtx := mtx }

/-! ## The functions -/

/-- A call of one of the two functions, and the label of its waiting loop. -/
inductive Call
  | push (args : List Byte)
  | pop (size : Nat)

/-- A program on a blocking ring. -/
abbrev BlockProg (α : Type) := Prog Op Op.Res Call α

abbrev lock : BlockProg Unit := .op .lock .ret
abbrev unlock : BlockProg Unit := .op .unlock .ret
abbrev signal (c : Cond) : BlockProg Unit := .op (.signal c) .ret
abbrev getHead : BlockProg SizeT := .op .getHead .ret
abbrev getTail : BlockProg SizeT := .op .getTail .ret
abbrev setHead (v : SizeT) : BlockProg Unit := .op (.setHead v) .ret
abbrev setTail (v : SizeT) : BlockProg Unit := .op (.setTail v) .ret
abbrev memcpyTo (a : Nat) (args : List Byte) : BlockProg Unit := copyTo .writeByte a args
abbrev memcpyFrom (a size : Nat) : BlockProg (List Byte) := copyFrom .readByte (fun _ b => b) a size

/-- `pthread_cond_wait` -/
def condWait (c : Cond) : BlockProg Unit := do
  .op (.sleep c) .ret
  .op (.relock c) .ret

/-- `Push_BlockRingBuf` from its loop test on. -/
def pushLoop (r : Ring SizeT) (args : List Byte) : BlockProg Ret := do
  let head ← getHead
  let tail ← getTail
  if head - tail ≥ r.objNum then do
    condWait .writeable
    .jump (.push args)
  else do
    let h ← getHead
    memcpyTo (r.addr (h &&& r.mask)) args
    let head ← getHead
    let h ← getHead
    setHead (h + 1)
    signal .readable
    unlock
    pure ⟨toSsize head, []⟩

/-- `Pop_BlockRingBuf` from its loop test on, with the bytes it copies into `buf`. -/
def popLoop (r : Ring SizeT) (size : Nat) : BlockProg Ret := do
  let head ← getHead
  let tail ← getTail
  if head = tail then do
    condWait .readable
    .jump (.pop size)
  else do
    let d ← getTail
    let buf ← memcpyFrom (r.addr (d &&& r.mask)) size
    let tail ← getTail
    let d ← getTail
    setTail (d + 1)
    signal .writeable
    unlock
    pure ⟨toSsize tail, buf⟩

/-- `Push_BlockRingBuf`, where `args` are the `size` bytes to push. The return code is also stored
in `errno` when the size is too large. -/
def pushBlockRingBuf (r : Ring SizeT) (args : List Byte) : BlockProg Ret :=
  if args.length > r.objSize then pure ⟨ringbufPushSizeTooLarge, []⟩
  else do
    lock
    .jump (.push args)

/-- `Pop_BlockRingBuf` -/
def popBlockRingBuf (r : Ring SizeT) (size : Nat) : BlockProg Ret :=
  if size > r.objSize then pure ⟨ringbufPopSizeTooLarge, []⟩
  else do
    lock
    .jump (.pop size)

/-- The code behind the labels. -/
def code (r : Ring SizeT) : Call → BlockProg Ret
  | .push args => pushLoop r args
  | .pop size => popLoop r size

/-- The program of a call. -/
def body (r : Ring SizeT) : Call → BlockProg Ret
  | .push args => pushBlockRingBuf r args
  | .pop size => popBlockRingBuf r size

/-- Any number of threads, each of which pushes and pops as it likes. -/
def sys (r : Ring SizeT) (Tid : Type) [DecidableEq Tid] :
    Sys Op Op.Res Call Tid Call Ret (BMem Tid) where
  exec := Exec
  env := Env
  body := body r
  code := code r
  allow _ _ _ := True

/-! ## What a call produces -/

/-- A call of `Push_BlockRingBuf`. -/
def Call.pushes : Call → Bool
  | .push _ => true
  | .pop _ => false

/-- The condition a call waits for, and the one it signals. -/
def Call.needs : Call → Cond
  | .push _ => .writeable
  | .pop _ => .readable

def Call.gives : Call → Cond
  | .push _ => .readable
  | .pop _ => .writeable

/-- The size of a call. -/
def Call.size : Call → Nat
  | .push args => args.length
  | .pop size => size

/-- The bytes a push puts into its element. -/
def Call.elem : Call → Elem
  | .push args => .ofList args
  | .pop _ => fun _ => none

/-- The position that a store of `head_` publishes. -/
def putHead : (o : Op) → o.Res → Option SizeT
  | .setHead v, _ => some (v - 1)
  | _, _ => none

/-- The position that a store of `tail_` gives back. -/
def putTail : (o : Op) → o.Res → Option SizeT
  | .setTail v, _ => some (v - 1)
  | _, _ => none

end Block

end RingBuf
