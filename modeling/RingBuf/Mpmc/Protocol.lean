import RingBuf.Mpmc.Code
import RingBuf.Mpmc.Slots

/-!
# The Mpmc functions as moves

Where a thread can stand inside a call of the Mpmc ring (`Role`), the operations that take it
from one place to the next (`Trans`), and what may be returned where (`final`). The two pop
functions differ only in what they do with a claimed slot. `follows` checks the code against
these moves, whatever the shared memory answers.
-/

namespace RingBuf

open Conc Word

namespace Mpmc

/-- Where a thread stands inside a call. -/
inductive Role (W : Type) (n : Nat)
  | start (c : Call n)
  | sawHead (args : List Byte) (h : W)
  | sawPushSeq (args : List Byte) (h seq : W)
  /-- Between the claim of `h` and the slot store, with `j` bytes copied. -/
  | filling (args : List Byte) (h : W) (j : Nat)
  | pushed (h : W)
  | sawTail (c : Call n) (d : W)
  | sawPopSeq (c : Call n) (d seq : W)
  /-- Between the claim of `d` and the slot store, with the bytes copied out so far. -/
  | draining (c : Call n) (d : W) (bs : List Byte)
  | popped (c : Call n) (d : W) (bs : List Byte)
  /-- The compare-exchange failed. -/
  | lost

/-- The position claimed for writing. -/
def Role.fill {W : Type} [Word W] {n : Nat} : Role W n → Option Nat
  | .filling _ h _ => some (toNat h)
  | _ => none

/-- The position claimed for reading. -/
def Role.drain {W : Type} [Word W] {n : Nat} : Role W n → Option Nat
  | .draining _ d _ => some (toNat d)
  | _ => none

variable {W : Type} [Word W] {r : Ring W}

/-- The moves of a push and of the two pops. -/
inductive Trans (r : Ring W) : Role W r.objSize → (o : Op W) → o.Res → Role W r.objSize → Prop
  | loadHead {args h} : args.length ≤ r.objSize →
      Trans r (.start (.push args)) .loadHead h (.sawHead args h)
  | pushSeq {args h seq} :
      Trans r (.sawHead args h) (.loadSlot (h &&& r.mask)) seq (.sawPushSeq args h seq)
  | claimHead {args h seq} : dif seq h = 0 →
      Trans r (.sawPushSeq args h seq) (.casHead h (h + 1)) true (.filling args h 0)
  | missHead {args h seq} :
      Trans r (.sawPushSeq args h seq) (.casHead h (h + 1)) false .lost
  | copyIn {args h j b} : args[j]? = some b →
      Trans r (.filling args h j) (.writeByte (r.addr (h &&& r.mask) + j) b) ()
        (.filling args h (j + 1))
  | publish {args h} :
      Trans r (.filling args h args.length) (.storeSlot (h &&& r.mask) (h + 1)) () (.pushed h)
  | loadTail {c d} : (∀ args, c ≠ .push args) → (∀ size, c = .pop size → size ≤ r.objSize) →
      Trans r (.start c) .loadTail d (.sawTail c d)
  | popSeq {c d seq} :
      Trans r (.sawTail c d) (.loadSlot (d &&& r.mask)) seq (.sawPopSeq c d seq)
  | claimTail {c d seq} : dif seq (d + 1) = 0 →
      Trans r (.sawPopSeq c d seq) (.casTail d (d + 1)) true (.draining c d [])
  | missTail {c d seq} :
      Trans r (.sawPopSeq c d seq) (.casTail d (d + 1)) false .lost
  | copyOut {size d bs b} : bs.length < size → size ≤ r.objSize →
      Trans r (.draining (.pop size) d bs) (.readByte (r.addr (d &&& r.mask) + bs.length)) b
        (.draining (.pop size) d (bs ++ [b]))
  | enterCb {cb d bs} :
      Trans r (.draining (.popWCb cb) d bs) (.callback (some (r.addr (d &&& r.mask)))) ()
        (.draining (.popWCb cb) d bs)
  | readCb {cb d bs b} {j : Nat} : j < r.objSize →
      Trans r (.draining (.popWCb cb) d bs) (.readByte (r.addr (d &&& r.mask) + j)) b
        (.draining (.popWCb cb) d bs)
  | release {c d bs} : (∀ size, c = .pop size → bs.length = size) →
      Trans r (.draining c d bs) (.storeSlot (d &&& r.mask) (d + r.objNum)) () (.popped c d bs)

/-- The protocol of the Mpmc ring. -/
def proto (r : Ring W) :
    Proto (Op W) Op.Res Empty (Call r.objSize) Ret (Role W r.objSize) where
  start := .start
  trans := Trans r
  final
    | .start (.push args), v => args.length > r.objSize ∧ v = ⟨ringbufPushSizeTooLarge, []⟩
    | .start (.pop size), v => size > r.objSize ∧ v = ⟨ringbufPopSizeTooLarge, []⟩
    | .sawPushSeq _ h seq, v =>
      dif seq h > 0 ∧ v = ⟨ringbufContention, []⟩ ∨ dif seq h < 0 ∧ v = ⟨ringbufFull, []⟩
    | .sawPopSeq _ d seq, v => dif seq (d + 1) > 0 ∧ v = ⟨ringbufContention, []⟩ ∨
      dif seq (d + 1) < 0 ∧ v = ⟨ringbufEmpty, []⟩
    | .lost, v => v = ⟨ringbufContention, []⟩
    | .pushed h, v => v = ⟨toSsize h, []⟩
    | .popped (.pop _) d bs, v => v = ⟨toSsize d, bs⟩
    | .popped (.popWCb _) _ _, v => v.buf = []
    | _, _ => False
  entry _ _ := False

theorem wp_push (args : List Byte) :
    (proto r).wp (body r (.push args)) (proto r).final (.start (.push args)) := by
  refine Proto.wp_bind ?_
  unfold pushMpmcRingBuf
  split
  case isTrue hsize => exact ⟨hsize, rfl⟩
  case isFalse hsize =>
    simp only [Prog.op_bind, Prog.ret_bind]
    refine fun h => ⟨_, .loadHead (by omega), fun seq => ⟨_, .pushSeq, ?_⟩⟩
    beta_reduce
    split
    case isTrue hpos => exact .inl ⟨hpos, rfl⟩
    case isFalse hpos =>
      split
      case isTrue hneg => exact .inr ⟨hneg, rfl⟩
      case isFalse hneg =>
        intro claimed
        cases claimed with
        | false => exact ⟨_, .missHead, rfl⟩
        | true =>
          refine ⟨_, .claimHead (by omega), Proto.wp_bind ?_⟩
          exact wp_memcpyTo (P := proto r) (fun j => .filling args h j) (fun j b hb => .copyIn hb)
            fun _ => ⟨_, .publish, rfl⟩

theorem wp_pop (size : Nat) :
    (proto r).wp (body r (.pop size)) (proto r).final (.start (.pop size)) := by
  refine Proto.wp_bind ?_
  unfold popMpmcRingBuf
  split
  case isTrue hsize => exact ⟨hsize, rfl⟩
  case isFalse hsize =>
    simp only [Prog.op_bind, Prog.ret_bind]
    refine fun d => ⟨_, .loadTail (by simp) (by rintro _ ⟨⟩; omega), fun seq => ⟨_, .popSeq, ?_⟩⟩
    beta_reduce
    split
    case isTrue hpos => exact .inl ⟨hpos, rfl⟩
    case isFalse hpos =>
      split
      case isTrue hneg => exact .inr ⟨hneg, rfl⟩
      case isFalse hneg =>
        intro claimed
        cases claimed with
        | false => exact ⟨_, .missTail, rfl⟩
        | true =>
          refine ⟨_, .claimTail (by omega), Proto.wp_bind ?_⟩
          exact wp_memcpyFrom (P := proto r) (fun bs => .draining (.pop size) d bs)
            (fun bs b hlt => .copyOut hlt (by omega))
            fun bs hbs _ => ⟨_, .release (by rintro _ ⟨⟩; exact hbs), rfl⟩

theorem wp_popWCb (cb : Callback r.objSize) :
    (proto r).wp (body r (.popWCb cb)) (proto r).final (.start (.popWCb cb)) := by
  refine Proto.wp_bind ?_
  simp only [popWCbMpmcRingBuf, Prog.op_bind, Prog.ret_bind]
  refine fun d => ⟨_, .loadTail (by simp) (by simp), fun seq => ⟨_, .popSeq, ?_⟩⟩
  beta_reduce
  split
  case isTrue hpos => exact .inl ⟨hpos, rfl⟩
  case isFalse hpos =>
    split
    case isTrue hneg => exact .inr ⟨hneg, rfl⟩
    case isFalse hneg =>
      intro claimed
      cases claimed with
      | false => exact ⟨_, .missTail, rfl⟩
      | true =>
        refine ⟨_, .claimTail (by omega), fun _ => ⟨_, .enterCb, Proto.wp_bind ?_⟩⟩
        apply wp_readObj (P := proto r) (fun j b => .readCb j.isLt)
        exact fun rc _ => ⟨_, .release (by simp), rfl⟩

/-- **The code makes only these moves.** -/
theorem follows (r : Ring W) (Tid : Type) [DecidableEq Tid] : (proto r).Follows (sys r Tid) where
  body
    | .push args => wp_push args
    | .pop size => wp_pop size
    | .popWCb cb => wp_popWCb cb
  code l := l.elim

end Mpmc

end RingBuf
