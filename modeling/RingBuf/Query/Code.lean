import RingBuf.Conc.Watch
import RingBuf.Memory

/-!
# The functions that ask a ring how full it is

`Is_empty_`, `Is_full_`, `Capacity_` and `Size_` of the Spsc and Mpsc rings. Both kinds load
`head_`, then `tail_`, and compare or subtract what they have read; any thread may call them at
any time.
-/

namespace RingBuf

open Conc Word

/-- Load `head_`, then `tail_`. -/
def twoLoads {α : Type} (f : SizeT → SizeT → α) : RingProg SizeT α := do
  let currHead ← loadHead
  let currTail ← loadTail
  pure (f currHead currTail)

/-- `Is_empty_SpscRingBuf` -/
def isEmptySpscRingBuf : RingProg SizeT Bool :=
  twoLoads fun currHead currTail => currHead == currTail

/-- `Is_full_SpscRingBuf` -/
def isFullSpscRingBuf (r : Ring SizeT) : RingProg SizeT Bool :=
  twoLoads fun currHead currTail => currHead - currTail ≥ r.objNum

/-- `Capacity_SpscRingBuf` -/
def capacitySpscRingBuf (r : Ring SizeT) : RingProg SizeT SizeT := pure r.objNum

/-- `Size_SpscRingBuf` -/
def sizeSpscRingBuf : RingProg SizeT SizeT :=
  twoLoads fun currHead currTail => currHead - currTail

/-- `Is_empty_MpscRingBuf` -/
def isEmptyMpscRingBuf : RingProg SizeT Bool :=
  twoLoads fun currHead currTail => currHead == currTail

/-- `Is_full_MpscRingBuf` -/
def isFullMpscRingBuf (r : Ring SizeT) : RingProg SizeT Bool :=
  twoLoads fun currHead currTail => currHead - currTail ≥ r.objNum

/-- `Capacity_MpscRingBuf` -/
def capacityMpscRingBuf (r : Ring SizeT) : RingProg SizeT SizeT := pure r.objNum

/-- `Size_MpscRingBuf` -/
def sizeMpscRingBuf : RingProg SizeT SizeT :=
  twoLoads fun currHead currTail => currHead - currTail

/-! ## Queries as calls -/

/-- A question. -/
inductive Query
  | isEmpty
  | isFull
  | capacity
  | size
  deriving DecidableEq

/-- What comes back, a `bool` or a `size_t`. -/
inductive Answer
  | bool (b : Bool)
  | size (n : SizeT)
  deriving DecidableEq

namespace Query

/-- The programs of the queries, given the four functions. -/
def prog (isEmpty isFull : RingProg SizeT Bool) (capacity size : RingProg SizeT SizeT) :
    Query → RingProg SizeT Answer
  | .isEmpty => do
    let b ← isEmpty
    pure (.bool b)
  | .isFull => do
    let b ← isFull
    pure (.bool b)
  | .capacity => do
    let n ← capacity
    pure (.size n)
  | .size => do
    let n ← size
    pure (.size n)

end Query

/-- The queries of an Spsc ring. -/
def Spsc.query (r : Ring SizeT) : Query → RingProg SizeT Answer :=
  Query.prog isEmptySpscRingBuf (isFullSpscRingBuf r) (capacitySpscRingBuf r) sizeSpscRingBuf

/-- The queries of an Mpsc ring. -/
def Mpsc.query (r : Ring SizeT) : Query → RingProg SizeT Answer :=
  Query.prog isEmptyMpscRingBuf (isFullMpscRingBuf r) (capacityMpscRingBuf r) sizeMpscRingBuf

namespace Query

/-- What is answered from the two counters. -/
def answer (r : Ring SizeT) : Query → SizeT → SizeT → Answer
  | .isEmpty, h, d => .bool (h == d)
  | .isFull, h, d => .bool (h - d ≥ r.objNum)
  | .capacity, _, _ => .size r.objNum
  | .size, h, d => .size (h - d)

/-- Where a thread stands inside a query. -/
inductive Role
  | start (q : Query)
  | sawHead (q : Query) (h : SizeT)
  | sawBoth (q : Query) (h d : SizeT)

/-- The two loads. -/
inductive Trans : Role → (o : Op SizeT) → o.Res → Role → Prop
  | loadHead {q h} : Trans (.start q) .loadHead h (.sawHead q h)
  | loadTail {q h d} : Trans (.sawHead q h) .loadTail d (.sawBoth q h d)

/-- The protocol of the queries. -/
def proto (r : Ring SizeT) : Proto (Op SizeT) Op.Res Empty Query Answer Role where
  start := .start
  trans := Trans
  final
    | .start .capacity, v => v = .size r.objNum
    | .sawBoth q h d, v => v = q.answer r h d
    | _, _ => False
  entry _ _ := False

variable {r : Ring SizeT}

/-- **The queries of both kinds make only these moves.** -/
theorem wp_prog (q : Query) : (proto r).wp (prog isEmptySpscRingBuf (isFullSpscRingBuf r)
    (capacitySpscRingBuf r) sizeSpscRingBuf q) (proto r).final (.start q) := by
  cases q with
  | capacity => rfl
  | _ => exact fun h => ⟨_, .loadHead, fun d => ⟨_, .loadTail, rfl⟩⟩

/-- A query changes nothing. -/
theorem exec_of_trans {Tid : Type} [DecidableEq Tid] {t : Tid} {l l' : Role} {o : Op SizeT}
    {x : o.Res} {m m' : Mem SizeT Tid} (hm : Trans l o x l') (he : exec t o m = (x, m')) :
    m' = m := by
  cases hm with
  | loadHead => exact (Prod.mk.inj he).2.symm
  | loadTail => exact (Prod.mk.inj he).2.symm

end Query

end RingBuf
