import RingBuf.Mpmc.Code

/-!
# One Mpmc call that nothing interrupts

What each function of the Mpmc ring does when it runs alone, as a function of the memory it
finds. The slot word decides: it is compared with the counter, or with its successor.
-/

namespace RingBuf

open Conc Word

namespace Mpmc

variable {W Tid : Type} [Word W] [DecidableEq Tid] {r : Ring W} {t : Tid} {m : Mem W Tid}

/-- The slot word that a push compares with `head_`. -/
def headSeq (r : Ring W) (m : Mem W Tid) : W := m.slot (toNat (m.head &&& r.mask))

/-- The slot word that a pop compares with the successor of `tail_`. -/
def tailSeq (r : Ring W) (m : Mem W Tid) : W := m.slot (toNat (m.tail &&& r.mask))

/-- Memory after a push. -/
def filled (r : Ring W) (m : Mem W Tid) (args : List Byte) : Mem W Tid :=
  { m with
    head := m.head + 1
    buffer := putBytes m.buffer (r.addr (m.head &&& r.mask)) args
    slot := Function.update m.slot (toNat (m.head &&& r.mask)) (m.head + 1) }

/-- Memory after a pop. -/
def drained (r : Ring W) (m : Mem W Tid) : Mem W Tid :=
  { m with
    tail := m.tail + 1
    slot := Function.update m.slot (toNat (m.tail &&& r.mask)) (m.tail + r.objNum) }

theorem run_push {args : List Byte} (hlen : args.length ≤ r.objSize) :
    (pushMpmcRingBuf r args).run (exec t) m =
      if dif (headSeq r m) m.head > 0 then (ringbufContention, m)
      else if dif (headSeq r m) m.head < 0 then (ringbufFull, m)
      else (toSsize m.head, filled r m args) := by
  unfold pushMpmcRingBuf
  rw [if_neg (Nat.not_lt.2 hlen)]
  show (ite (dif (headSeq r m) m.head > 0) _ _ : RingProg W Int).run (exec t) m = _
  by_cases hpos : dif (headSeq r m) m.head > 0
  · rw [if_pos hpos, if_pos hpos]
    rfl
  rw [if_neg hpos, if_neg hpos]
  show (ite (dif (headSeq r m) m.head < 0) _ _ : RingProg W Int).run (exec t) m = _
  by_cases hneg : dif (headSeq r m) m.head < 0
  · rw [if_pos hneg, if_pos hneg]
    rfl
  · have hload : exec t .loadHead m = (m.head, m) := rfl
    have hcas : exec t (.casHead m.head (m.head + 1)) m = (true, { m with head := m.head + 1 }) :=
      if_pos rfl
    rw [if_neg hneg, if_neg hneg]
    simp only [Prog.op_bind, Prog.ret_bind, Prog.run_op, hload, hcas, if_true, Prog.run_bind,
      run_memcpyTo]
    rfl

theorem run_pop {size : Nat} (hlen : size ≤ r.objSize) :
    (popMpmcRingBuf r size).run (exec t) m =
      if dif (tailSeq r m) (m.tail + 1) > 0 then ((ringbufContention, []), m)
      else if dif (tailSeq r m) (m.tail + 1) < 0 then ((ringbufEmpty, []), m)
      else ((toSsize m.tail, (List.range' (r.addr (m.tail &&& r.mask)) size).map m.buffer),
        drained r m) := by
  unfold popMpmcRingBuf
  rw [if_neg (Nat.not_lt.2 hlen)]
  show (ite (dif (tailSeq r m) (m.tail + 1) > 0) _ _ : RingProg W _).run (exec t) m = _
  by_cases hpos : dif (tailSeq r m) (m.tail + 1) > 0
  · rw [if_pos hpos, if_pos hpos]
    rfl
  rw [if_neg hpos, if_neg hpos]
  show (ite (dif (tailSeq r m) (m.tail + 1) < 0) _ _ : RingProg W _).run (exec t) m = _
  by_cases hneg : dif (tailSeq r m) (m.tail + 1) < 0
  · rw [if_pos hneg, if_pos hneg]
    rfl
  · have hload : exec t .loadTail m = (m.tail, m) := rfl
    have hcas : exec t (.casTail m.tail (m.tail + 1)) m = (true, { m with tail := m.tail + 1 }) :=
      if_pos rfl
    rw [if_neg hneg, if_neg hneg]
    simp only [Prog.op_bind, Prog.ret_bind, Prog.run_op, hload, hcas, if_true, Prog.run_bind,
      run_memcpyFrom]
    rfl

theorem run_popWCb (cb : Callback r.objSize) :
    (popWCbMpmcRingBuf r cb).run (exec t) m =
      if dif (tailSeq r m) (m.tail + 1) > 0 then (ringbufContention, m)
      else if dif (tailSeq r m) (m.tail + 1) < 0 then (ringbufEmpty, m)
      else (cb.answer m.buffer (r.addr (m.tail &&& r.mask)), drained r m) := by
  show (ite (dif (tailSeq r m) (m.tail + 1) > 0) _ _ : RingProg W _).run (exec t) m = _
  by_cases hpos : dif (tailSeq r m) (m.tail + 1) > 0
  · rw [if_pos hpos, if_pos hpos]
    rfl
  rw [if_neg hpos, if_neg hpos]
  show (ite (dif (tailSeq r m) (m.tail + 1) < 0) _ _ : RingProg W _).run (exec t) m = _
  by_cases hneg : dif (tailSeq r m) (m.tail + 1) < 0
  · rw [if_pos hneg, if_pos hneg]
    rfl
  · have hload : exec t .loadTail m = (m.tail, m) := rfl
    have hcas : exec t (.casTail m.tail (m.tail + 1)) m = (true, { m with tail := m.tail + 1 }) :=
      if_pos rfl
    rw [if_neg hneg, if_neg hneg]
    simp only [Prog.op_bind, Prog.ret_bind, Prog.run_op, hload, hcas, if_true, Prog.run_bind,
      run_callCb]
    rfl

end Mpmc

end RingBuf
