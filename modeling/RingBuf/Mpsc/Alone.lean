import RingBuf.Mpsc.Code

/-!
# One Mpsc call that nothing interrupts

What each function of the Mpsc ring does when it runs alone, as a function of the memory it
finds: any counters, any status words, any `local_head`.

* `run_push`, `run_pop`, `run_popWCb`: what is returned and what memory is left.
* `delivered`: the operations by which a call hands data out.
-/

namespace RingBuf

open Conc Word

namespace Mpsc

variable {Tid : Type} [DecidableEq Tid] {r : Ring SizeT} {t : Tid} {m : Mem SizeT Tid}

/-! ## The empty test -/

/-- `local_head` after the empty test of a pop. -/
def testedHead (t : Tid) (m : Mem SizeT Tid) : SizeT :=
  if m.localHead t = m.tail then m.head else m.localHead t

/-- Memory after the empty test of a pop. -/
def tested (t : Tid) (m : Mem SizeT Tid) : Mem SizeT Tid :=
  { m with localHead := Function.update m.localHead t (testedHead t m) }

theorem run_popEmpty : (popEmpty m.tail).run (exec t) m =
    (decide (testedHead t m = m.tail), tested t m) := by
  unfold tested testedHead
  show (ite (m.localHead t = m.tail) _ _ : RingProg SizeT Bool).run (exec t) m = _
  by_cases h : m.localHead t = m.tail
  · simp only [h, if_true]
    rfl
  · simp only [h, if_false, Function.update_eq_self, decide_false]
    rfl

/-- The operations that hand data out: a byte copied into the caller's buffer, or a callback. -/
def delivers : ((o : Op SizeT) × o.Res) → Bool
  | ⟨.readByte _, _⟩ | ⟨.callback _, _⟩ => true
  | _ => false

/-- The operations by which a call hands data out. -/
def delivered {α : Type} (t : Tid) (m : Mem SizeT Tid) (p : RingProg SizeT α) :
    List ((o : Op SizeT) × o.Res) :=
  (p.log (exec t) m).filter delivers

theorem delivered_bind {α β : Type} (p : RingProg SizeT α) (f : α → RingProg SizeT β) :
    delivered t m (p >>= f) =
      delivered t m p ++ delivered t (p.run (exec t) m).2 (f (p.run (exec t) m).1) := by
  rw [delivered, Prog.log_bind, List.filter_append]
  rfl

theorem delivered_popEmpty : delivered t m (popEmpty m.tail) = [] := by
  show (List.filter delivers (Prog.log (exec t) (ite (m.localHead t = m.tail) _ _) m)) = _
  by_cases h : m.localHead t = m.tail
  · rw [if_pos h]
    rfl
  · rw [if_neg h]
    rfl

theorem delivered_memcpyFrom (a size : Nat) :
    delivered t m (memcpyFrom a size) = [] ↔ size = 0 := by
  cases size with
  | zero => exact ⟨fun _ => rfl, fun _ => rfl⟩
  | succ size =>
    constructor
    · intro h
      cases h
    · intro h
      cases h

/-! ## The calls -/

/-- The slot that a pop looks at. -/
def tailSlot (r : Ring SizeT) (m : Mem SizeT Tid) : Nat := toNat (m.tail &&& r.mask)

/-- The status word it finds there. -/
def tailStat (r : Ring SizeT) (m : Mem SizeT Tid) : SizeT := m.slot (tailSlot r m)

/-- Memory after a push. -/
def filled (r : Ring SizeT) (m : Mem SizeT Tid) (args : List Byte) : Mem SizeT Tid :=
  { m with
    head := m.head + 1
    buffer := putBytes m.buffer (r.addr (m.head &&& r.mask)) args
    slot := Function.update m.slot (toNat (m.head &&& r.mask)) slotValid }

/-- Memory after a pop has given its slot back. -/
def givenBack (r : Ring SizeT) (m : Mem SizeT Tid) : Mem SizeT Tid :=
  { m with slot := Function.update m.slot (tailSlot r m) slotEmpty, tail := m.tail + 1 }

theorem run_push {args : List Byte} (hlen : args.length ≤ r.objSize) :
    (pushMpscRingBuf r args).run (exec t) m =
      if m.head - m.tail ≥ r.objNum then (ringbufFull, m)
      else (toSsize m.head, { m with
        head := m.head + 1
        buffer := putBytes m.buffer (r.addr (m.head &&& r.mask)) args
        slot := Function.update m.slot (toNat (m.head &&& r.mask)) slotValid }) := by
  unfold pushMpscRingBuf
  rw [if_neg (Nat.not_lt.2 hlen)]
  show (ite (m.head - m.tail ≥ r.objNum) _ _ : RingProg SizeT Int).run (exec t) m = _
  by_cases hfull : m.head - m.tail ≥ r.objNum
  · rw [if_pos hfull, if_pos hfull]
    rfl
  · have hload : exec t .loadHead m = (m.head, m) := rfl
    have hcas : exec t (.casHead m.head (m.head + 1)) m = (true, { m with head := m.head + 1 }) :=
      if_pos rfl
    rw [if_neg hfull, if_neg hfull]
    simp only [Prog.op_bind, Prog.ret_bind, Prog.run_op, hload, hcas, if_true, Prog.run_bind,
      run_memcpyTo]
    rfl

theorem run_pop {size : Nat} (hlen : size ≤ r.objSize) :
    (popMpscRingBuf r size).run (exec t) m =
      if testedHead t m = m.tail then ((ringbufEmpty, []), tested t m)
      else if tailStat r m &&& slotEmpty ≠ 0 then ((ringbufSlotWritingData, []), tested t m)
      else ((toSsize m.tail, (List.range' (r.addr (m.tail &&& r.mask)) size).map m.buffer),
        givenBack r (tested t m)) := by
  unfold popMpscRingBuf
  rw [if_neg (Nat.not_lt.2 hlen)]
  show (popEmpty m.tail >>= _).run (exec t) m = _
  rw [Prog.run_bind, run_popEmpty]
  by_cases hempty : testedHead t m = m.tail
  · simp [hempty]
  · have htail : exec t .loadTail m = (m.tail, m) := rfl
    have hload : exec t (.loadSlot (m.tail &&& r.mask)) (tested t m) =
      (tailStat r m, tested t m) := rfl
    simp only [hempty, decide_false, Bool.false_eq_true, if_false, Prog.op_bind, Prog.ret_bind,
      Prog.run_op, htail, hload]
    by_cases hstat : tailStat r m &&& slotEmpty ≠ 0
    · rw [if_pos hstat, if_pos hstat]
      rfl
    · have hunknown : ¬ tailStat r m &&& slotUnknown ≠ 0 := by simp [slotUnknown]
      rw [if_neg hstat, if_neg hstat, if_neg hunknown, Prog.run_bind, run_memcpyFrom]
      rfl

theorem run_popWCb (cb : Callback r.objSize) :
    (popWCbMpscRingBuf r cb).run (exec t) m =
      if testedHead t m = m.tail then (ringbufEmpty, tested t m)
      else if tailStat r m &&& slotEmpty ≠ 0 then (ringbufSlotWritingData, tested t m)
      else (cb.answer m.buffer (r.addr (m.tail &&& r.mask)), givenBack r (tested t m)) := by
  show (popEmpty m.tail >>= _).run (exec t) m = _
  rw [Prog.run_bind, run_popEmpty]
  by_cases hempty : testedHead t m = m.tail
  · simp [hempty]
  · have htail : exec t .loadTail m = (m.tail, m) := rfl
    have hload : exec t (.loadSlot (m.tail &&& r.mask)) (tested t m) =
      (tailStat r m, tested t m) := rfl
    simp only [hempty, decide_false, Bool.false_eq_true, if_false, Prog.op_bind, Prog.ret_bind,
      Prog.run_op, htail, hload]
    by_cases hstat : tailStat r m &&& slotEmpty ≠ 0
    · rw [if_pos hstat, if_pos hstat]
      rfl
    · have hunknown : ¬ tailStat r m &&& slotUnknown ≠ 0 := by simp [slotUnknown]
      rw [if_neg hstat, if_neg hstat, if_neg hunknown, Prog.run_bind, run_callCb]
      rfl

end Mpsc

end RingBuf
