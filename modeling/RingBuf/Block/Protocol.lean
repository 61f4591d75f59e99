import RingBuf.Block.Code

/-!
# The blocking functions as moves

Where a thread can stand inside a push or pop, and the operations that take it from one place to
the next. The two functions go through the same places; they differ in their loop test, in the
counter they advance, and in the direction of their copy.
-/

namespace RingBuf

open Conc Word

namespace Block

/-- Where a thread stands inside a call. -/
inductive Role
  | start (c : Call)
  /-- The mutex is held, and the loop test comes next. -/
  | locked (c : Call)
  | sawHead (c : Call) (h : SizeT)
  /-- The loop test has failed. -/
  | mustWait (c : Call)
  /-- Inside `pthread_cond_wait`, asleep or woken. -/
  | waiting (c : Call)
  /-- The loop is over. -/
  | ready (c : Call)
  /-- The slot of `p` is being copied: `j` bytes have been written, `bs` have been read. -/
  | copying (c : Call) (p : SizeT) (j : Nat) (bs : List Byte)
  /-- The position `p` to be returned is saved. -/
  | kept (c : Call) (p : SizeT) (bs : List Byte)
  | advancing (c : Call) (p q : SizeT) (bs : List Byte)
  /-- The counter has gone past `q`. -/
  | signalling (c : Call) (p q : SizeT) (bs : List Byte)
  | unlocking (c : Call) (p q : SizeT) (bs : List Byte)
  | done (c : Call) (p q : SizeT) (bs : List Byte)

/-- The moves of the pushes and pops. -/
inductive Trans (r : Ring SizeT) : Role → (o : Op) → o.Res → Role → Prop
  | lock {c} : c.size ≤ r.objSize → Trans r (.start c) .lock () (.locked c)
  | head {c h} : Trans r (.locked c) .getHead h (.sawHead c h)
  | full {args h d} : h - d ≥ r.objNum →
      Trans r (.sawHead (.push args) h) .getTail d (.mustWait (.push args))
  | room {args h d} : ¬ h - d ≥ r.objNum →
      Trans r (.sawHead (.push args) h) .getTail d (.ready (.push args))
  | empty {size h} : Trans r (.sawHead (.pop size) h) .getTail h (.mustWait (.pop size))
  | some {size h d} : h ≠ d → Trans r (.sawHead (.pop size) h) .getTail d (.ready (.pop size))
  | sleep {c} : Trans r (.mustWait c) (.sleep c.needs) () (.waiting c)
  | relock {c} : Trans r (.waiting c) (.relock c.needs) () (.locked c)
  | pushSlot {args h} : Trans r (.ready (.push args)) .getHead h (.copying (.push args) h 0 [])
  | popSlot {size d} : Trans r (.ready (.pop size)) .getTail d (.copying (.pop size) d 0 [])
  | copyIn {args h j b} : args[j]? = Option.some b →
      Trans r (.copying (.push args) h j []) (.writeByte (r.addr (h &&& r.mask) + j) b) ()
        (.copying (.push args) h (j + 1) [])
  | copyOut {size d bs b} : bs.length < size →
      Trans r (.copying (.pop size) d 0 bs) (.readByte (r.addr (d &&& r.mask) + bs.length)) b
        (.copying (.pop size) d 0 (bs ++ [b]))
  | keepHead {args h p} :
      Trans r (.copying (.push args) h args.length []) .getHead p (.kept (.push args) p [])
  | keepTail {size d p bs} : bs.length = size →
      Trans r (.copying (.pop size) d 0 bs) .getTail p (.kept (.pop size) p bs)
  | loadHead {args p h} :
      Trans r (.kept (.push args) p []) .getHead h (.advancing (.push args) p h [])
  | loadTail {size p d bs} :
      Trans r (.kept (.pop size) p bs) .getTail d (.advancing (.pop size) p d bs)
  | publish {args p h} :
      Trans r (.advancing (.push args) p h []) (.setHead (h + 1)) ()
        (.signalling (.push args) p h [])
  | giveBack {size p d bs} :
      Trans r (.advancing (.pop size) p d bs) (.setTail (d + 1)) ()
        (.signalling (.pop size) p d bs)
  | signal {c p q bs} : Trans r (.signalling c p q bs) (.signal c.gives) () (.unlocking c p q bs)
  | unlock {c p q bs} : Trans r (.unlocking c p q bs) .unlock () (.done c p q bs)

/-- The return code of a call that is rejected for its size. -/
def Call.tooLarge : Call → Int
  | .push _ => ringbufPushSizeTooLarge
  | .pop _ => ringbufPopSizeTooLarge

/-- The protocol of the blocking ring. -/
def proto (r : Ring SizeT) : Proto Op Op.Res Call Call Ret Role where
  start := .start
  trans := Trans r
  final
    | .start c, v => c.size > r.objSize ∧ v = ⟨c.tooLarge, []⟩
    | .done _ p _ bs, v => v = ⟨toSsize p, bs⟩
    | _, _ => False
  entry c l := l = .locked c

variable {r : Ring SizeT}

theorem wp_pushBlockRingBuf (args : List Byte) :
    (proto r).wp (pushBlockRingBuf r args) (proto r).final (.start (.push args)) := by
  unfold pushBlockRingBuf
  split
  case isTrue hsize => exact ⟨hsize, rfl⟩
  case isFalse hsize => exact fun _ => ⟨_, .lock (Nat.not_lt.1 hsize), rfl⟩

theorem wp_popBlockRingBuf (size : Nat) :
    (proto r).wp (popBlockRingBuf r size) (proto r).final (.start (.pop size)) := by
  unfold popBlockRingBuf
  split
  case isTrue hsize => exact ⟨hsize, rfl⟩
  case isFalse hsize => exact fun _ => ⟨_, .lock (Nat.not_lt.1 hsize), rfl⟩

theorem wp_pushLoop (args : List Byte) :
    (proto r).wp (pushLoop r args) (proto r).final (.locked (.push args)) := by
  simp only [pushLoop, Prog.op_bind, Prog.ret_bind]
  refine fun h => ⟨_, .head, fun d => ?_⟩
  beta_reduce
  split
  case isTrue hfull =>
    exact ⟨_, .full hfull, fun _ => ⟨_, .sleep, fun _ => ⟨_, .relock, rfl⟩⟩⟩
  case isFalse hroom =>
    refine ⟨_, .room hroom, fun h => ⟨_, .pushSlot, Proto.wp_bind ?_⟩⟩
    refine wp_copyTo (P := proto r) (fun j => .copying (.push args) h j [])
      (fun j b _ hb => .copyIn hb) ?_
    exact fun p => ⟨_, .keepHead, fun h => ⟨_, .loadHead, fun _ => ⟨_, .publish,
      fun _ => ⟨_, .signal, fun _ => ⟨_, .unlock, rfl⟩⟩⟩⟩⟩

theorem wp_popLoop (size : Nat) :
    (proto r).wp (popLoop r size) (proto r).final (.locked (.pop size)) := by
  simp only [popLoop, Prog.op_bind, Prog.ret_bind]
  refine fun h => ⟨_, .head, fun d => ?_⟩
  beta_reduce
  split
  case isTrue hempty =>
    subst hempty
    exact ⟨_, .empty, fun _ => ⟨_, .sleep, fun _ => ⟨_, .relock, rfl⟩⟩⟩
  case isFalse hsome =>
    refine ⟨_, .some hsome, fun d => ⟨_, .popSlot, Proto.wp_bind ?_⟩⟩
    refine wp_copyFrom (P := proto r) (fun bs => .copying (.pop size) d 0 bs)
      (fun bs b hlt => .copyOut hlt) fun bs hbs => ?_
    exact fun p => ⟨_, .keepTail hbs, fun d => ⟨_, .loadTail, fun _ => ⟨_, .giveBack,
      fun _ => ⟨_, .signal, fun _ => ⟨_, .unlock, rfl⟩⟩⟩⟩⟩

/-- **The code makes only these moves.** -/
theorem follows (r : Ring SizeT) (Tid : Type) [DecidableEq Tid] :
    (proto r).Follows (sys r Tid) where
  body
    | .push args => wp_pushBlockRingBuf args
    | .pop size => wp_popBlockRingBuf size
  code j l h := by
    obtain rfl : l = .locked j := h
    cases j with
    | push args => exact wp_pushLoop args
    | pop size => exact wp_popLoop size

end Block

end RingBuf
