import RingBuf.Mpsc.Code

/-!
# The Mpsc functions as moves

Where a thread can stand inside a call of the Mpsc ring, the operations that take it from one
place to the next, and what may be returned where. Nothing a pop learns from `local_head` enters
its role: whatever the cache says, the slot's status decides.
-/

namespace RingBuf

open Conc Word

namespace Mpsc

/-- Where a thread stands inside a call. -/
inductive Role (n : Nat)
  | start (c : Call n)
  | sawHead (args : List Byte) (h : SizeT)
  | sawTail (args : List Byte) (h d : SizeT)
  /-- Between the claim of `h` and the slot store, with `j` bytes copied. -/
  | filling (args : List Byte) (h : SizeT) (j : Nat)
  | pushed (h : SizeT)
  /-- The compare-exchange failed. -/
  | lost
  | popTail (c : Call n) (d : SizeT)
  /-- The cached head says empty. -/
  | popCache (c : Call n) (d : SizeT)
  | popHead (c : Call n) (d h : SizeT)
  /-- The empty test has passed, or (`empty`) it has not. -/
  | popSlot (c : Call n) (d : SizeT)
  | empty
  /-- The slot was marked empty. -/
  | refused
  /-- Between the load of a status without `SLOT_EMPTY` and the slot store, with the bytes copied
  out so far. -/
  | draining (c : Call n) (d : SizeT) (bs : List Byte)
  /-- The slot is marked empty again, the tail not yet advanced. -/
  | cleared (c : Call n) (d : SizeT) (bs : List Byte)
  | popped (c : Call n) (d : SizeT) (bs : List Byte)

variable {r : Ring SizeT}

/-- The moves of a push and of the two pops. -/
inductive Trans (r : Ring SizeT) :
    Role r.objSize → (o : Op SizeT) → o.Res → Role r.objSize → Prop
  | loadHead {args h} : args.length ≤ r.objSize →
      Trans r (.start (.push args)) .loadHead h (.sawHead args h)
  | loadTail {args h d} : Trans r (.sawHead args h) .loadTail d (.sawTail args h d)
  | claimHead {args h d} : ¬ h - d ≥ r.objNum →
      Trans r (.sawTail args h d) (.casHead h (h + 1)) true (.filling args h 0)
  | missHead {args h d} : Trans r (.sawTail args h d) (.casHead h (h + 1)) false .lost
  | copyIn {args h j b} : args[j]? = some b →
      Trans r (.filling args h j) (.writeByte (r.addr (h &&& r.mask) + j) b) ()
        (.filling args h (j + 1))
  | publish {args h} :
      Trans r (.filling args h args.length) (.storeSlot (h &&& r.mask) slotValid) () (.pushed h)
  | others {c v} : c.pops = true → Trans r (.start c) (.setLocalHead v) () (.start c)
  | popTail {c d} : c.pops = true → (∀ others size, c = .pop others size → size ≤ r.objSize) →
      Trans r (.start c) .loadTail d (.popTail c d)
  | cacheEmpty {c d} : Trans r (.popTail c d) .getLocalHead d (.popCache c d)
  | cacheSome {c d h} : h ≠ d → Trans r (.popTail c d) .getLocalHead h (.popSlot c d)
  | popHead {c d h} : Trans r (.popCache c d) .loadHead h (.popHead c d h)
  | setEmpty {c d} : Trans r (.popHead c d d) (.setLocalHead d) () .empty
  | setSome {c d h} : h ≠ d → Trans r (.popHead c d h) (.setLocalHead h) () (.popSlot c d)
  | refuse {c d st} : st &&& slotEmpty ≠ 0 →
      Trans r (.popSlot c d) (.loadSlot (d &&& r.mask)) st .refused
  | accept {c d st} : st &&& slotEmpty = 0 →
      Trans r (.popSlot c d) (.loadSlot (d &&& r.mask)) st (.draining c d [])
  | copyOut {others size d bs b} : bs.length < size → size ≤ r.objSize →
      Trans r (.draining (.pop others size) d bs)
        (.readByte (r.addr (d &&& r.mask) + bs.length)) b
        (.draining (.pop others size) d (bs ++ [b]))
  | enterCb {others cb d bs} :
      Trans r (.draining (.popWCb others cb) d bs) (.callback (some (r.addr (d &&& r.mask)))) ()
        (.draining (.popWCb others cb) d bs)
  | readCb {others cb d bs b} {j : Nat} : j < r.objSize →
      Trans r (.draining (.popWCb others cb) d bs) (.readByte (r.addr (d &&& r.mask) + j)) b
        (.draining (.popWCb others cb) d bs)
  | clear {c d bs} : (∀ others size, c = .pop others size → bs.length = size) →
      Trans r (.draining c d bs) (.storeSlot (d &&& r.mask) slotEmpty) () (.cleared c d bs)
  | advance {c d bs} : Trans r (.cleared c d bs) (.storeTail (d + 1)) () (.popped c d bs)

/-- The protocol of the Mpsc ring. -/
def proto (r : Ring SizeT) :
    Proto (Op SizeT) Op.Res Empty (Call r.objSize) Ret (Role r.objSize) where
  start := .start
  trans := Trans r
  final
    | .start (.push args), v => args.length > r.objSize ∧ v = ⟨ringbufPushSizeTooLarge, []⟩
    | .start (.pop _ size), v => size > r.objSize ∧ v = ⟨ringbufPopSizeTooLarge, []⟩
    | .sawTail _ h d, v => h - d ≥ r.objNum ∧ v = ⟨ringbufFull, []⟩
    | .lost, v => v = ⟨ringbufContention, []⟩
    | .pushed h, v => v = ⟨toSsize h, []⟩
    | .empty, v => v = ⟨ringbufEmpty, []⟩
    | .refused, v => v = ⟨ringbufSlotWritingData, []⟩
    | .popped (.pop _ _) d bs, v => v = ⟨toSsize d, bs⟩
    | .popped (.popWCb _ _) _ _, v => v.buf = []
    | _, _ => False
  entry _ _ := False

theorem wp_push (args : List Byte) :
    (proto r).wp (body r (.push args)) (proto r).final (.start (.push args)) := by
  refine Proto.wp_bind ?_
  unfold pushMpscRingBuf
  split
  case isTrue hsize => exact ⟨hsize, rfl⟩
  case isFalse hsize =>
    simp only [Prog.op_bind, Prog.ret_bind]
    refine fun h => ⟨_, .loadHead (by omega), fun d => ⟨_, .loadTail, ?_⟩⟩
    beta_reduce
    split
    case isTrue hfull => exact ⟨hfull, rfl⟩
    case isFalse hfull =>
      intro claimed
      cases claimed with
      | false => exact ⟨_, .missHead, rfl⟩
      | true =>
        refine ⟨_, .claimHead hfull, Proto.wp_bind ?_⟩
        exact wp_memcpyTo (P := proto r) (fun j => .filling args h j) (fun j b hb => .copyIn hb)
          fun _ => ⟨_, .publish, rfl⟩

theorem wp_otherRings {c : Call r.objSize} (hc : c.pops = true) (others : Option SizeT)
    {Q : Role r.objSize → Unit → Prop} (hQ : Q (.start c) ()) :
    (proto r).wp (otherRings others) Q (.start c) := by
  cases others with
  | none => exact hQ
  | some v => exact fun _ => ⟨_, .others hc, hQ⟩

/-- The empty test ends in `empty`, or lets the pop go on to the slot. -/
theorem wp_popEmpty {c : Call r.objSize} {d : SizeT} {Q : Role r.objSize → Bool → Prop}
    (hempty : Q .empty true) (hslot : Q (.popSlot c d) false) :
    (proto r).wp (popEmpty d) Q (.popTail c d) := by
  simp only [popEmpty, Prog.op_bind, Prog.ret_bind]
  intro localHead
  beta_reduce
  split
  case isTrue hd =>
    subst hd
    refine ⟨_, .cacheEmpty, fun h => ⟨_, .popHead, ?_⟩⟩
    by_cases hh : h = localHead
    · subst hh
      refine fun _ => ⟨_, .setEmpty, ?_⟩
      simpa using hempty
    · refine fun _ => ⟨_, .setSome hh, ?_⟩
      simpa [hh] using hslot
  case isFalse hd => exact ⟨_, .cacheSome hd, hslot⟩

theorem wp_pop (others : Option SizeT) (size : Nat) :
    (proto r).wp (body r (.pop others size)) (proto r).final (.start (.pop others size)) := by
  refine Proto.wp_bind (wp_otherRings rfl others (Proto.wp_bind ?_))
  unfold popMpscRingBuf
  split
  case isTrue hsize => exact ⟨hsize, rfl⟩
  case isFalse hsize =>
    simp only [Prog.op_bind, Prog.ret_bind]
    refine fun d => ⟨_, .popTail rfl (by rintro _ _ ⟨⟩; omega), Proto.wp_bind ?_⟩
    refine wp_popEmpty rfl ?_
    simp only [Bool.false_eq_true, if_false]
    intro st
    beta_reduce
    split
    case isTrue hempty => exact ⟨_, .refuse hempty, rfl⟩
    case isFalse hempty =>
      refine ⟨_, .accept (by simpa using hempty), ?_⟩
      split
      case isTrue hunknown => simp [slotUnknown] at hunknown
      case isFalse =>
        refine Proto.wp_bind ?_
        exact wp_memcpyFrom (P := proto r) (fun bs => .draining (.pop others size) d bs)
          (fun bs b hlt => .copyOut hlt (by omega))
          fun bs hbs _ => ⟨_, .clear (by rintro _ _ ⟨⟩; exact hbs), fun _ => ⟨_, .advance, rfl⟩⟩

theorem wp_popWCb (others : Option SizeT) (cb : Callback r.objSize) :
    (proto r).wp (body r (.popWCb others cb)) (proto r).final (.start (.popWCb others cb)) := by
  refine Proto.wp_bind (wp_otherRings rfl others (Proto.wp_bind ?_))
  simp only [popWCbMpscRingBuf, Prog.op_bind, Prog.ret_bind]
  refine fun d => ⟨_, .popTail rfl (by simp), Proto.wp_bind ?_⟩
  refine wp_popEmpty rfl ?_
  simp only [Bool.false_eq_true, if_false]
  intro st
  beta_reduce
  split
  case isTrue hempty => exact ⟨_, .refuse hempty, rfl⟩
  case isFalse hempty =>
    refine ⟨_, .accept (by simpa using hempty), ?_⟩
    split
    case isTrue hunknown => simp [slotUnknown] at hunknown
    case isFalse =>
      refine fun _ => ⟨_, .enterCb, Proto.wp_bind ?_⟩
      exact wp_readObj (P := proto r) (fun j b => .readCb j.isLt)
        fun rc _ => ⟨_, .clear (by simp), fun _ => ⟨_, .advance, rfl⟩⟩

/-- **The code makes only these moves.** -/
theorem follows (r : Ring SizeT) (Tid : Type) [DecidableEq Tid] :
    (proto r).Follows (sys r Tid) where
  body
    | .push args => wp_push args
    | .pop others size => wp_pop others size
    | .popWCb others cb => wp_popWCb others cb
  code l := l.elim

end Mpsc

end RingBuf
