import RingBuf.Block.Code

/-!
# A blocking call that nothing interrupts

On a ring that nobody else is using, a push of a ring with room and a pop of a ring with elements
go through without waiting (`alone_push`, `alone_pop`), so the runs of such calls one after the
other are runs of the system.
-/

namespace RingBuf

open Conc Word LawfulWord

namespace Block

variable {Tid : Type} [DecidableEq Tid] {r : Ring SizeT} {t : Tid} {m m' : BMem Tid} {v : Ret}
  {ops : List ((o : Op) × o.Res)}

/-! ## Copies -/

/-- The operations of `memcpy` into the ring. -/
def copyOps (a : Nat) : List Byte → List ((o : Op) × o.Res)
  | [] => []
  | b :: bs => ⟨.writeByte a b, ()⟩ :: copyOps (a + 1) bs

/-- The operations of `memcpy` out of the ring. -/
def readOps (buffer : Nat → Byte) (a : Nat) : Nat → List ((o : Op) × o.Res)
  | 0 => []
  | size + 1 => ⟨.readByte a, buffer a⟩ :: readOps buffer (a + 1) size

theorem alone_memcpyTo {a : Nat} {bs : List Byte} {k : Unit → BlockProg Ret}
    (h : Alone (sys r Tid) t (k ()) { m with buffer := putBytes m.buffer a bs } ops v m') :
    Alone (sys r Tid) t (memcpyTo a bs >>= k) m (copyOps a bs ++ ops) v m' := by
  induction bs generalizing a m with
  | nil => exact h
  | cons b bs ih => exact .op rfl (ih h)

theorem alone_memcpyFrom {a size : Nat} {k : List Byte → BlockProg Ret}
    (h : Alone (sys r Tid) t (k ((List.range' a size).map m.buffer)) m ops v m') :
    Alone (sys r Tid) t (memcpyFrom a size >>= k) m (readOps m.buffer a size ++ ops) v m' := by
  induction size generalizing a k with
  | zero => exact h
  | succ size ih =>
    have hk : Alone (sys r Tid) t
        (memcpyFrom (a + 1) size >>= fun bs => k (m.buffer a :: bs)) m
        (readOps m.buffer (a + 1) size ++ ops) v m' := ih h
    have hstep : Alone (sys r Tid) t
        ((memcpyFrom (a + 1) size >>= fun bs => pure (m.buffer a :: bs)) >>= k) m
        (readOps m.buffer (a + 1) size ++ ops) v m' := by
      rw [Prog.bind_assoc]
      exact hk
    exact .op ⟨rfl, rfl⟩ hstep

/-! ## Calls -/

theorem exec_lock (hm : m.mtx = .new) :
    Exec t .lock m () { m with mtx := ⟨some t, fun _ => none⟩ } :=
  ⟨_, ⟨by rw [hm]; rfl, rfl⟩, by rw [hm]; rfl⟩

/-- With nobody asleep, a signal does nothing. -/
theorem exec_signal (c : Cond) (hm : m.mtx.asleep = fun _ => none) : Exec t (.signal c) m () m := by
  refine ⟨m.mtx, ⟨rfl, fun u => .inl rfl, fun ⟨u, hu⟩ => ?_⟩, rfl⟩
  rw [hm] at hu
  cases hu

theorem exec_unlock (hm : m.mtx = ⟨some t, fun _ => none⟩) :
    Exec t .unlock m () { m with mtx := .new } := by
  show _ = _
  rw [hm]
  rfl

/-- What a push that goes through does. -/
def pushState (r : Ring SizeT) (args : List Byte) (m : BMem Tid) : BMem Tid :=
  { m with
    head := m.head + 1
    buffer := putBytes m.buffer (r.addr (m.head &&& r.mask)) args }

/-- The operations of a push that goes through. -/
def pushOps (r : Ring SizeT) (args : List Byte) (m : BMem Tid) : List ((o : Op) × o.Res) :=
  [⟨.lock, ()⟩, ⟨.getHead, m.head⟩, ⟨.getTail, m.tail⟩, ⟨.getHead, m.head⟩] ++
    (copyOps (r.addr (m.head &&& r.mask)) args ++
      [⟨.getHead, m.head⟩, ⟨.getHead, m.head⟩, ⟨.setHead (m.head + 1), ()⟩, ⟨.signal .readable, ()⟩,
        ⟨.unlock, ()⟩])

theorem alone_push {args : List Byte} (hsize : args.length ≤ r.objSize) (hm : m.mtx = .new)
    (hroom : ¬ m.head - m.tail ≥ r.objNum) :
    Alone (sys r Tid) t (pushBlockRingBuf r args) m (pushOps r args m) ⟨toSsize m.head, []⟩
      (pushState r args m) := by
  rw [pushBlockRingBuf, if_neg (Nat.not_lt.2 hsize)]
  refine .op (exec_lock hm) (.jump (.op ⟨rfl, rfl⟩ (.op ⟨rfl, rfl⟩ ?_)))
  show Alone _ t (ite _ _ _) _ _ _ _
  rw [if_neg hroom]
  refine .op ⟨rfl, rfl⟩ (alone_memcpyTo (.op ⟨rfl, rfl⟩ (.op ⟨rfl, rfl⟩ (.op rfl ?_))))
  refine .op (exec_signal (t := t) _ rfl) (.op (exec_unlock (t := t) rfl) ?_)
  rw [← hm]
  exact .ret

/-- The bytes at the tail. -/
def tailBytes (r : Ring SizeT) (size : Nat) (m : BMem Tid) : List Byte :=
  (List.range' (r.addr (m.tail &&& r.mask)) size).map m.buffer

/-- The operations of a pop that goes through. -/
def popOps (r : Ring SizeT) (size : Nat) (m : BMem Tid) : List ((o : Op) × o.Res) :=
  [⟨.lock, ()⟩, ⟨.getHead, m.head⟩, ⟨.getTail, m.tail⟩, ⟨.getTail, m.tail⟩] ++
    (readOps m.buffer (r.addr (m.tail &&& r.mask)) size ++
      [⟨.getTail, m.tail⟩, ⟨.getTail, m.tail⟩, ⟨.setTail (m.tail + 1), ()⟩,
        ⟨.signal .writeable, ()⟩, ⟨.unlock, ()⟩])

theorem alone_pop {size : Nat} (hsize : size ≤ r.objSize) (hm : m.mtx = .new)
    (hsome : m.head ≠ m.tail) :
    Alone (sys r Tid) t (popBlockRingBuf r size) m (popOps r size m)
      ⟨toSsize m.tail, tailBytes r size m⟩ { m with tail := m.tail + 1 } := by
  rw [popBlockRingBuf, if_neg (Nat.not_lt.2 hsize)]
  refine .op (exec_lock hm) (.jump (.op ⟨rfl, rfl⟩ (.op ⟨rfl, rfl⟩ ?_)))
  show Alone _ t (ite _ _ _) _ _ _ _
  rw [if_neg hsome]
  refine .op ⟨rfl, rfl⟩ (alone_memcpyFrom (.op ⟨rfl, rfl⟩ (.op ⟨rfl, rfl⟩ (.op rfl ?_))))
  refine .op (exec_signal (t := t) _ rfl) (.op (exec_unlock (t := t) rfl) ?_)
  rw [← hm]
  exact .ret

end Block

end RingBuf
