import RingBuf.Image.Created
import RingBuf.Mpmc.Code
import RingBuf.Mpsc.Code
import RingBuf.Spsc.Code

/-!
# The programs stay within the ring

Masking a counter gives a slot of the ring, and the sizes are checked before a copy. So no program
comes to an operation beyond the capacity (`Within`), whatever it reads.
-/

namespace RingBuf

open Conc Word Bytes
open Setup (Geometry hasSlots)

namespace Image

variable {g : Geometry} {r : Ring SizeT}

theorem mask_lt (w : SizeT) : (w &&& r.mask).toNat < r.cap := by
  have h := r.toNat_and_mask w
  change (w &&& r.mask).toNat = _ at h
  rw [h]
  exact r.index_lt _

/-- The bytes of a slot lie in the object area. -/
theorem addr_add_le (w : SizeT) {n : Nat} (hn : n ≤ r.objSize) :
    r.addr (w &&& r.mask) + n ≤ r.cap * r.objSize := by
  have h := strip_end_le 0 r.objSize (mask_lt (r := r) w)
  have haddr : r.addr (w &&& r.mask) = (w &&& r.mask).toNat * r.objSize := rfl
  omega

/-! ## Copies and callbacks -/

theorem all_memcpyTo {a : Nat} {args : List Byte} (h : a + args.length ≤ r.cap * r.objSize) :
    (memcpyTo a args : RingProg SizeT Unit).All (Within g r) := by
  induction args generalizing a with
  | nil => trivial
  | cons b bs ih =>
    rw [List.length_cons] at h
    refine ⟨?_, fun _ => ih (by omega)⟩
    show a < _
    omega

theorem all_memcpyFrom {a size : Nat} (h : a + size ≤ r.cap * r.objSize) :
    (memcpyFrom a size : RingProg SizeT (List Byte)).All (Within g r) := by
  induction size generalizing a with
  | zero => trivial
  | succ size ih =>
    refine ⟨?_, fun b => (ih (by omega)).bind fun _ => trivial⟩
    show a < _
    omega

theorem all_readObj {α : Type} {n a : Nat} (h : a + n ≤ r.cap * r.objSize)
    (p : Prog (Fin n) (fun _ => Byte) Empty α) :
    (readObj a p : RingProg SizeT α).All (Within g r) := by
  induction p with
  | ret v => trivial
  | op j k ih =>
    refine ⟨?_, ih⟩
    show a + j < _
    have := j.isLt
    omega
  | jump l => exact l.elim

theorem all_callCb (cb : Callback r.objSize) (w : SizeT) :
    (callCb cb (some (r.addr (w &&& r.mask))) : RingProg SizeT Int).All (Within g r) :=
  ⟨trivial, fun _ => all_readObj (addr_add_le w (Nat.le_refl _)) cb.onObj⟩

theorem all_writeObj {a : Nat} (h : a + r.objSize ≤ r.cap * r.objSize)
    (ws : List (Fin r.objSize × Byte)) :
    (Spsc.writeObj a ws).All (Within g r) := by
  induction ws with
  | nil => trivial
  | cons w ws ih =>
    refine ⟨?_, fun _ => ih⟩
    show a + w.1 < _
    have := w.1.isLt
    omega

theorem all_popEmpty (w : SizeT) : (popEmpty w).All (Within g r) := by
  unfold popEmpty
  simp only [Prog.op_bind, Prog.ret_bind]
  refine ⟨trivial, fun localHead => ?_⟩
  beta_reduce
  split
  case isTrue => exact ⟨trivial, fun _ => ⟨trivial, fun _ => trivial⟩⟩
  case isFalse => trivial

/-! ## Mpmc -/

section Slots

variable (hs : hasSlots g.kind = true)
include hs

theorem all_pushMpmcRingBuf (args : List Byte) :
    (Mpmc.pushMpmcRingBuf r args).All (Within g r) := by
  unfold Mpmc.pushMpmcRingBuf
  split
  case isTrue => trivial
  case isFalse hsize =>
    simp only [Prog.op_bind, Prog.ret_bind]
    refine ⟨trivial, fun head => ⟨⟨hs, mask_lt head⟩, fun seq => ?_⟩⟩
    beta_reduce
    split
    case isTrue => trivial
    case isFalse =>
      split
      case isTrue => trivial
      case isFalse =>
        refine ⟨trivial, fun claimed => ?_⟩
        cases claimed with
        | false => trivial
        | true =>
          apply Prog.All.bind (all_memcpyTo (addr_add_le head (by omega)))
          exact fun _ => ⟨⟨hs, mask_lt head⟩, fun _ => trivial⟩

theorem all_popMpmcRingBuf (size : Nat) : (Mpmc.popMpmcRingBuf r size).All (Within g r) := by
  unfold Mpmc.popMpmcRingBuf
  split
  case isTrue => trivial
  case isFalse hsize =>
    simp only [Prog.op_bind, Prog.ret_bind]
    refine ⟨trivial, fun tail => ⟨⟨hs, mask_lt tail⟩, fun seq => ?_⟩⟩
    beta_reduce
    split
    case isTrue => trivial
    case isFalse =>
      split
      case isTrue => trivial
      case isFalse =>
        refine ⟨trivial, fun claimed => ?_⟩
        cases claimed with
        | false => trivial
        | true =>
          apply Prog.All.bind (all_memcpyFrom (addr_add_le tail (by omega)))
          exact fun _ => ⟨⟨hs, mask_lt tail⟩, fun _ => trivial⟩

theorem all_popWCbMpmcRingBuf (cb : Callback r.objSize) :
    (Mpmc.popWCbMpmcRingBuf r cb).All (Within g r) := by
  unfold Mpmc.popWCbMpmcRingBuf
  simp only [Prog.op_bind, Prog.ret_bind]
  refine ⟨trivial, fun tail => ⟨⟨hs, mask_lt tail⟩, fun seq => ?_⟩⟩
  beta_reduce
  split
  case isTrue => trivial
  case isFalse =>
    split
    case isTrue => trivial
    case isFalse =>
      refine ⟨trivial, fun claimed => ?_⟩
      cases claimed with
      | false => trivial
      | true =>
        apply Prog.All.bind (all_callCb cb tail)
        exact fun _ => ⟨⟨hs, mask_lt tail⟩, fun _ => trivial⟩

/-- Every call on an Mpmc ring stays within it. -/
theorem all_mpmc (c : Mpmc.Call r.objSize) : (Mpmc.body r c).All (Within g r) := by
  cases c with
  | push args => exact (all_pushMpmcRingBuf hs args).bind fun _ => trivial
  | pop size => exact (all_popMpmcRingBuf hs size).bind fun _ => trivial
  | popWCb cb => exact (all_popWCbMpmcRingBuf hs cb).bind fun _ => trivial

/-! ## Mpsc -/

theorem all_pushMpscRingBuf (args : List Byte) :
    (Mpsc.pushMpscRingBuf r args).All (Within g r) := by
  unfold Mpsc.pushMpscRingBuf
  split
  case isTrue => trivial
  case isFalse hsize =>
    simp only [Prog.op_bind, Prog.ret_bind]
    refine ⟨trivial, fun head => ⟨trivial, fun tail => ?_⟩⟩
    beta_reduce
    split
    case isTrue => trivial
    case isFalse =>
      refine ⟨trivial, fun claimed => ?_⟩
      cases claimed with
      | false => trivial
      | true =>
        apply Prog.All.bind (all_memcpyTo (addr_add_le head (by omega)))
        exact fun _ => ⟨⟨hs, mask_lt head⟩, fun _ => trivial⟩

/-- The two stores at the end of a pop. -/
theorem all_release {α : Type} (tail v : SizeT) (x : α) :
    (do
      storeSlot (tail &&& r.mask) slotEmpty
      storeTail v
      pure x : RingProg SizeT α).All (Within g r) :=
  ⟨⟨hs, mask_lt tail⟩, fun _ => ⟨trivial, fun _ => trivial⟩⟩

theorem all_popMpscRingBuf (size : Nat) : (Mpsc.popMpscRingBuf r size).All (Within g r) := by
  unfold Mpsc.popMpscRingBuf
  split
  case isTrue => trivial
  case isFalse hsize =>
    simp only [Prog.op_bind, Prog.ret_bind]
    refine ⟨trivial, fun tail => ?_⟩
    apply Prog.All.bind (all_popEmpty tail)
    intro empty
    split
    case isTrue => trivial
    case isFalse =>
      refine ⟨⟨hs, mask_lt tail⟩, fun slotStat => ?_⟩
      beta_reduce
      split
      case isTrue => trivial
      case isFalse =>
        split
        case isTrue => exact all_release hs tail _ _
        case isFalse =>
          apply Prog.All.bind (all_memcpyFrom (addr_add_le tail (by omega)))
          exact fun _ => all_release hs tail _ _

theorem all_popWCbMpscRingBuf (cb : Callback r.objSize) :
    (Mpsc.popWCbMpscRingBuf r cb).All (Within g r) := by
  unfold Mpsc.popWCbMpscRingBuf
  simp only [Prog.op_bind, Prog.ret_bind]
  refine ⟨trivial, fun tail => ?_⟩
  apply Prog.All.bind (all_popEmpty tail)
  intro empty
  split
  case isTrue => trivial
  case isFalse =>
    refine ⟨⟨hs, mask_lt tail⟩, fun slotStat => ?_⟩
    beta_reduce
    split
    case isTrue => trivial
    case isFalse =>
      split
      case isTrue => exact all_release hs tail _ _
      case isFalse =>
        apply Prog.All.bind (all_callCb cb tail)
        exact fun _ => all_release hs tail _ _

omit hs in
theorem all_otherRings (others : Option SizeT) : (Mpsc.otherRings others).All (Within g r) := by
  cases others with
  | none => trivial
  | some v => exact ⟨trivial, fun _ => trivial⟩

/-- Every call on an Mpsc ring stays within it. -/
theorem all_mpsc (c : Mpsc.Call r.objSize) : (Mpsc.body r c).All (Within g r) := by
  cases c with
  | push args => exact (all_pushMpscRingBuf hs args).bind fun _ => trivial
  | pop others size =>
    exact (all_otherRings others).bind fun _ => (all_popMpscRingBuf hs size).bind fun _ => trivial
  | popWCb others cb =>
    exact (all_otherRings others).bind fun _ => (all_popWCbMpscRingBuf hs cb).bind fun _ => trivial

end Slots

/-! ## Spsc -/

theorem all_pushFull (head : SizeT) : (Spsc.pushFull r head).All (Within g r) := by
  unfold Spsc.pushFull
  simp only [Prog.op_bind, Prog.ret_bind]
  refine ⟨trivial, fun localTail => ?_⟩
  beta_reduce
  split
  case isTrue => exact ⟨trivial, fun _ => ⟨trivial, fun _ => trivial⟩⟩
  case isFalse => trivial

theorem all_pushSpscRingBuf (args : List Byte) :
    (Spsc.pushSpscRingBuf r args).All (Within g r) := by
  unfold Spsc.pushSpscRingBuf
  split
  case isTrue => trivial
  case isFalse hsize =>
    simp only [Prog.op_bind, Prog.ret_bind]
    refine ⟨trivial, fun head => ?_⟩
    apply Prog.All.bind (all_pushFull head)
    intro full
    split
    case isTrue => trivial
    case isFalse =>
      apply Prog.All.bind (all_memcpyTo (addr_add_le head (by omega)))
      exact fun _ => ⟨trivial, fun _ => trivial⟩

theorem all_popSpscRingBuf (size : Nat) : (Spsc.popSpscRingBuf r size).All (Within g r) := by
  unfold Spsc.popSpscRingBuf
  split
  case isTrue => trivial
  case isFalse hsize =>
    simp only [Prog.op_bind, Prog.ret_bind]
    refine ⟨trivial, fun tail => ?_⟩
    apply Prog.All.bind (all_popEmpty tail)
    intro empty
    split
    case isTrue => trivial
    case isFalse =>
      apply Prog.All.bind (all_memcpyFrom (addr_add_le tail (by omega)))
      exact fun _ => ⟨trivial, fun _ => trivial⟩

/-- Code that goes on with `NULL` or with a slot of the ring, after a test. -/
theorem all_slotOrNull {α : Type} {test : RingProg SizeT Bool} {k : Option Nat → RingProg SizeT α}
    {w : SizeT} (htest : test.All (Within g r)) (hnull : (k none).All (Within g r))
    (hk : (k (some (r.addr (w &&& r.mask)))).All (Within g r)) :
    ((test >>= fun b => if b then pure none else pure (some (r.addr (w &&& r.mask)))) >>= k).All
      (Within g r) := by
  rw [Prog.bind_assoc]
  apply Prog.All.bind htest
  intro b
  split
  case isTrue => exact hnull
  case isFalse => exact hk

theorem all_beginPush {α : Type} {k : Option Nat → RingProg SizeT α}
    (hnull : (k none).All (Within g r))
    (hk : ∀ w : SizeT, (k (some (r.addr (w &&& r.mask)))).All (Within g r)) :
    (Spsc.beginPushSpscRingBuf r >>= k).All (Within g r) :=
  ⟨trivial, fun head => all_slotOrNull (all_pushFull head) hnull (hk head)⟩

theorem all_beginPop {α : Type} {k : Option Nat → RingProg SizeT α}
    (hnull : (k none).All (Within g r))
    (hk : ∀ w : SizeT, (k (some (r.addr (w &&& r.mask)))).All (Within g r)) :
    (Spsc.beginPopSpscRingBuf r >>= k).All (Within g r) :=
  ⟨trivial, fun tail => all_slotOrNull (all_popEmpty tail) hnull (hk tail)⟩

/-- Every use of an Spsc ring stays within it. -/
theorem all_spsc (c : Spsc.Call r.objSize) : (Spsc.body r c).All (Within g r) := by
  cases c with
  | push args => exact (all_pushSpscRingBuf args).bind fun _ => trivial
  | pop size => exact (all_popSpscRingBuf size).bind fun _ => trivial
  | place ws commit =>
    refine all_beginPush ?_ fun w => ?_
    · trivial
    apply Prog.All.bind (all_writeObj (addr_add_le w (Nat.le_refl _)) ws)
    intro _
    cases commit with
    | false => trivial
    | true => exact ⟨trivial, fun _ => ⟨trivial, fun _ => trivial⟩⟩
  | take read =>
    refine all_beginPop ?_ fun w => ?_
    · trivial
    apply Prog.All.bind (all_readObj (addr_add_le w (Nat.le_refl _)) read)
    intro commit
    cases commit with
    | false => trivial
    | true => exact ⟨trivial, fun _ => ⟨trivial, fun _ => trivial⟩⟩

end Image

end RingBuf
