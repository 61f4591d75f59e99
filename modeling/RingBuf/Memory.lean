import RingBuf.Conc.Claims
import RingBuf.Word

/-!
# `RingBuf_t`: the ring in shared memory

The three lock-free rings share one layout, created by `get_buf`: the counters `head_` and
`tail_`, one slot word per object for the Mpsc and Mpmc kinds, and the object area. The header
fields that never change after creation (`objSize_`, `objNum_`, `mask_`) are kept apart in
`Ring`, which carries what the capacity test and the constructor establish about them.

Each atomic load, store and compare-exchange, and each byte copied in or out of the object area,
is one operation (`Op`). A thread also has its own `local_head` and `local_tail`, which no other
thread can touch.

Here the counters, the slot words and the objects lie apart, and `Ring.addr` multiplies without
wrapping. This is how they lie in the mapping as long as the layout of the ring does not wrap in
`size_t` (see `RingBuf.Setup.Layout`); for all these sizes `RingBuf.Image` has the operations act on
the bytes of the mapping and shows that nothing changes.
-/

namespace RingBuf

open Conc Word LawfulWord

abbrev Byte := BitVec 8

/-! ## Return codes -/

def ringbufFull : Int := -100
def ringbufEmpty : Int := -101
def ringbufContention : Int := -103
def ringbufPushSizeTooLarge : Int := -109
def ringbufPopSizeTooLarge : Int := -110
def ringbufSlotWritingData : Int := -112
def ringbufSlotStatUnknown : Int := -113

/-- `enum SlotStat`, the slot words of an Mpsc ring. -/
def slotUnknown : SizeT := 0
def slotEmpty : SizeT := 1
def slotValid : SizeT := 2

/-! ## The header -/

/-- The constant part of a ring: a power of two of objects, and the matching mask. -/
structure Ring (W : Type) [Word W] where
  objSize : Nat
  objNum : W
  mask : W
  exists_pow : ∃ k, 1 ≤ k ∧ toNat objNum = 2 ^ k
  mask_succ : toNat mask + 1 = toNat objNum

namespace Ring

variable {W : Type} [Word W] (r : Ring W)

/-- The number of objects. -/
def cap : Nat := toNat r.objNum

theorem two_le_cap : 2 ≤ r.cap := by
  obtain ⟨k, hk, h⟩ := r.exists_pow
  rw [cap, h]
  calc 2 = 2 ^ 1 := rfl
    _ ≤ 2 ^ k := Nat.pow_le_pow_right (by decide) hk

/-- The slot of a position. -/
def index (p : Nat) : Nat := p % r.cap

theorem index_lt (p : Nat) : r.index p < r.cap := Nat.mod_lt _ (by have := r.two_le_cap; omega)

/-- Masking a counter finds its slot. -/
theorem toNat_and_mask [LawfulWord W] (w : W) : toNat (w &&& r.mask) = r.index (toNat w) := by
  obtain ⟨k, -, h⟩ := r.exists_pow
  rw [toNat_and (r.mask_succ.trans h), index, cap, h]

/-- `&GET_BUFFER(r)[idx * r->objSize_]`, as an offset into the object area. -/
def addr (idx : W) : Nat := toNat idx * r.objSize

/-- The first byte of the slot of a position. -/
def base (p : Nat) : Nat := r.index p * r.objSize

theorem addr_and_mask [LawfulWord W] (w : W) : r.addr (w &&& r.mask) = r.base (toNat w) := by
  rw [addr, toNat_and_mask, base]

variable {r}

/-- Bytes of different slots have different addresses. -/
theorem base_add_inj {p q j j' : Nat} (hj : j < r.objSize) (hj' : j' < r.objSize)
    (h : r.base p + j = r.base q + j') : r.index p = r.index q ∧ j = j' := by
  have hpos : 0 < r.objSize := by omega
  have hdiv : ∀ i k, k < r.objSize → (i * r.objSize + k) / r.objSize = i := by
    intro i k hk
    rw [Nat.mul_comm, Nat.mul_add_div hpos, Nat.div_eq_of_lt hk, Nat.add_zero]
  have hi : r.index p = r.index q := by
    rw [← hdiv (r.index p) j hj, ← hdiv (r.index q) j' hj']
    exact congrArg (· / r.objSize) h
  refine ⟨hi, ?_⟩
  simp only [base, hi] at h
  omega

theorem cap_dvd (r : Ring SizeT) : r.cap ∣ 2 ^ 63 := by
  obtain ⟨k, -, h⟩ := r.exists_pow
  have hlt : r.cap < 2 ^ 64 := r.objNum.isLt
  rw [cap, h] at hlt ⊢
  have hk : k < 64 := (Nat.pow_lt_pow_iff_right (by decide)).1 hlt
  exact pow_dvd_pow 2 (by omega)

theorem cap_le (r : Ring SizeT) : r.cap ≤ 2 ^ 63 := Nat.le_of_dvd (by decide) r.cap_dvd

end Ring

/-- A position below `2 ^ 63` is returned as itself. -/
theorem toSsize_of_lt {p : SizeT} (h : toNat p < 2 ^ 63) : toSsize p = toNat p := by
  show p.toInt = p.toNat
  have h' : p.toNat < 2 ^ 63 := h
  exact BitVec.toInt_eq_toNat_of_lt (by omega)

/-- `get_aligned_offset` -/
def getAlignedOffset (baseOffset alignment : SizeT) : SizeT :=
  (baseOffset + alignment - 1) &&& ~~~(alignment - 1)

/-- The capacity test at the head of `get_buf`. -/
def capacityWrong (objNum : SizeT) : Bool :=
  objNum < 2 || (objNum &&& (objNum - 1)) != 0

theorem exists_pow_of_capacity {objNum : SizeT} (h : capacityWrong objNum = false) :
    ∃ k, 1 ≤ k ∧ toNat objNum = 2 ^ k := by
  simp only [capacityWrong, Bool.or_eq_false_iff, decide_eq_false_iff_not, bne_eq_false_iff_eq,
    BitVec.not_lt] at h
  obtain ⟨h₂, hand⟩ := h
  have h₂' : 2 ≤ objNum.toNat := h₂
  have hsub : (objNum - 1).toNat = objNum.toNat - 1 := by
    rw [BitVec.toNat_sub_of_le (by show 1 ≤ objNum.toNat; omega)]
    rfl
  have hand' : objNum.toNat &&& (objNum.toNat - 1) = 0 := by
    rw [← hsub, ← BitVec.toNat_and, hand]
    rfl
  obtain ⟨k, hk⟩ := exists_two_pow (by omega) hand'
  refine ⟨k, ?_, hk⟩
  rcases Nat.eq_zero_or_pos k with rfl | hpos
  · rw [hk] at h₂'
    simp at h₂'
  · exact hpos

theorem mask_succ_of_capacity {objNum : SizeT} (h : capacityWrong objNum = false) :
    toNat (objNum - 1) + 1 = toNat objNum := by
  have h₂ : 2 ≤ objNum.toNat := by
    simp only [capacityWrong, Bool.or_eq_false_iff, decide_eq_false_iff_not, BitVec.not_lt] at h
    exact h.1
  show (objNum - 1).toNat + 1 = objNum.toNat
  rw [BitVec.toNat_sub_of_le (by show 1 ≤ objNum.toNat; omega)]
  show objNum.toNat - 1 + 1 = objNum.toNat
  omega

/-- The header `get_buf` writes for an accepted capacity. -/
def getBufRing (objNum objSize : SizeT) : Option (Ring SizeT) :=
  if h : capacityWrong objNum = false then
    some {
      objSize := (getAlignedOffset objSize 64).toNat
      objNum := objNum
      mask := objNum - 1
      exists_pow := exists_pow_of_capacity h
      mask_succ := mask_succ_of_capacity h }
  else none

/-- The ring of two objects of a cache line. -/
def tinyRing : Ring SizeT where
  objSize := 64
  objNum := 2
  mask := 1
  exists_pow := ⟨1, by decide, rfl⟩
  mask_succ := rfl

/-! ## Shared memory -/

/-- The changing part of a ring, and the thread-local caches of the threads that use it. -/
structure Mem (W Tid : Type) where
  head : W
  tail : W
  slot : Nat → W
  buffer : Nat → Byte
  localHead : Tid → W
  localTail : Tid → W

/-- Memory full of zeros. -/
def Mem.zero {W Tid : Type} [Word W] : Mem W Tid :=
  ⟨0, 0, fun _ => 0, fun _ => 0, fun _ => 0, fun _ => 0⟩

/-- The operations on a ring. -/
inductive Op (W : Type)
  | loadHead
  | loadTail
  | storeHead (v : W)
  | storeTail (v : W)
  | casHead (expected desired : W)
  | casTail (expected desired : W)
  | loadSlot (i : W)
  | storeSlot (i v : W)
  | readByte (a : Nat)
  | writeByte (a : Nat) (b : Byte)
  | getLocalHead
  | setLocalHead (v : W)
  | getLocalTail
  | setLocalTail (v : W)
  /-- A user callback is entered with the pointer `p` (`none` for `NULL`). -/
  | callback (p : Option Nat)

/-- What an operation answers. -/
@[reducible] def Op.Res {W : Type} : Op W → Type
  | .loadHead | .loadTail | .loadSlot _ | .getLocalHead | .getLocalTail => W
  | .casHead _ _ | .casTail _ _ => Bool
  | .readByte _ => Byte
  | _ => Unit

/-- The position that a compare-exchange on `head_` takes when it succeeds. -/
def takeHead {W : Type} : (o : Op W) → o.Res → Option W
  | .casHead e _, true => some e
  | _, _ => none

/-- The position that a compare-exchange on `tail_` takes when it succeeds. -/
def takeTail {W : Type} : (o : Op W) → o.Res → Option W
  | .casTail e _, true => some e
  | _, _ => none

/-- The store that hands a slot over. -/
def dropSlot {W : Type} : Op W → Bool
  | .storeSlot _ _ => true
  | _ => false

/-- The position that a store of `head_` publishes. -/
def putHead : (o : Op SizeT) → o.Res → Option SizeT
  | .storeHead v, _ => some (v - 1)
  | _, _ => none

/-- The position that a store of `tail_` gives back. -/
def putTail : (o : Op SizeT) → o.Res → Option SizeT
  | .storeTail v, _ => some (v - 1)
  | _, _ => none

variable {W Tid : Type} [Word W] [DecidableEq Tid]

/-- The effect of an operation of thread `t`. -/
def exec (t : Tid) : (o : Op W) → Mem W Tid → o.Res × Mem W Tid
  | .loadHead, m => (m.head, m)
  | .loadTail, m => (m.tail, m)
  | .storeHead v, m => ((), { m with head := v })
  | .storeTail v, m => ((), { m with tail := v })
  | .casHead e d, m => if m.head = e then (true, { m with head := d }) else (false, m)
  | .casTail e d, m => if m.tail = e then (true, { m with tail := d }) else (false, m)
  | .loadSlot i, m => (m.slot (toNat i), m)
  | .storeSlot i v, m => ((), { m with slot := Function.update m.slot (toNat i) v })
  | .readByte a, m => (m.buffer a, m)
  | .writeByte a b, m => ((), { m with buffer := Function.update m.buffer a b })
  | .getLocalHead, m => (m.localHead t, m)
  | .setLocalHead v, m => ((), { m with localHead := Function.update m.localHead t v })
  | .getLocalTail, m => (m.localTail t, m)
  | .setLocalTail v, m => ((), { m with localTail := Function.update m.localTail t v })
  | .callback _, m => ((), m)

theorem exec_casHead {t : Tid} {e d : W} {m m' : Mem W Tid}
    (h : exec t (.casHead e d) m = (true, m')) : m.head = e ∧ m' = { m with head := d } := by
  simp only [exec] at h
  split at h
  case isTrue hm => exact ⟨hm, (Prod.mk.inj h).2.symm⟩
  case isFalse => cases (Prod.mk.inj h).1

theorem exec_casHead_false {t : Tid} {e d : W} {m m' : Mem W Tid}
    (h : exec t (.casHead e d) m = (false, m')) : m' = m := by
  simp only [exec] at h
  split at h
  case isTrue => cases (Prod.mk.inj h).1
  case isFalse => exact (Prod.mk.inj h).2.symm

theorem exec_casHead_ne {t : Tid} {e d : W} {m m' : Mem W Tid}
    (h : exec t (.casHead e d) m = (false, m')) : m.head ≠ e := by
  simp only [exec] at h
  split at h
  case isTrue => cases (Prod.mk.inj h).1
  case isFalse hm => exact hm

theorem exec_casTail {t : Tid} {e d : W} {m m' : Mem W Tid}
    (h : exec t (.casTail e d) m = (true, m')) : m.tail = e ∧ m' = { m with tail := d } := by
  simp only [exec] at h
  split at h
  case isTrue hm => exact ⟨hm, (Prod.mk.inj h).2.symm⟩
  case isFalse => cases (Prod.mk.inj h).1

theorem exec_casTail_false {t : Tid} {e d : W} {m m' : Mem W Tid}
    (h : exec t (.casTail e d) m = (false, m')) : m' = m := by
  simp only [exec] at h
  split at h
  case isTrue => cases (Prod.mk.inj h).1
  case isFalse => exact (Prod.mk.inj h).2.symm

theorem exec_casTail_ne {t : Tid} {e d : W} {m m' : Mem W Tid}
    (h : exec t (.casTail e d) m = (false, m')) : m.tail ≠ e := by
  simp only [exec] at h
  split at h
  case isTrue => cases (Prod.mk.inj h).1
  case isFalse hm => exact hm

/-- The kinds of ring `get_buf` can set up. -/
inductive RingBufSlot
  | noSlot
  | mpscSlot
  | mpmcSlot

/-- The slot stores of `get_buf`: `f i` into slot `i` for each `i < n`. -/
def initSlots (f : Nat → W) : Nat → (Nat → W) → Nat → W
  | 0, s => s
  | n + 1, s => Function.update (initSlots f n s) n (f n)

theorem initSlots_apply (f : Nat → W) (n : Nat) (s : Nat → W) {i : Nat} (hi : i < n) :
    initSlots f n s i = f i := by
  induction n with
  | zero => omega
  | succ n ih =>
    by_cases h : i = n
    · subst h; simp [initSlots]
    · simpa [initSlots, h] using ih (by omega)

/-- What `get_buf` stores into a new ring, over memory with any content. -/
def getBuf (r : Ring SizeT) (useSlot : RingBufSlot) (m : Mem SizeT Tid) : Mem SizeT Tid :=
  { m with
    head := 0
    tail := 0
    slot := match useSlot with
      | .mpmcSlot => initSlots ofNat r.cap m.slot
      | .mpscSlot => initSlots (fun _ => slotEmpty) r.cap m.slot
      | .noSlot => m.slot }

/-! ## Programs on a ring -/

/-- A program on a ring. -/
abbrev RingProg (W α : Type) := Prog (Op W) Op.Res Empty α

abbrev loadHead : RingProg W W := .op .loadHead .ret
abbrev loadTail : RingProg W W := .op .loadTail .ret
abbrev storeHead (v : W) : RingProg W Unit := .op (.storeHead v) .ret
abbrev storeTail (v : W) : RingProg W Unit := .op (.storeTail v) .ret
abbrev casHead (expected desired : W) : RingProg W Bool := .op (.casHead expected desired) .ret
abbrev casTail (expected desired : W) : RingProg W Bool := .op (.casTail expected desired) .ret
abbrev loadSlot (i : W) : RingProg W W := .op (.loadSlot i) .ret
abbrev storeSlot (i v : W) : RingProg W Unit := .op (.storeSlot i v) .ret
abbrev getLocalHead : RingProg W W := .op .getLocalHead .ret
abbrev setLocalHead (v : W) : RingProg W Unit := .op (.setLocalHead v) .ret
abbrev getLocalTail : RingProg W W := .op .getLocalTail .ret
abbrev setLocalTail (v : W) : RingProg W Unit := .op (.setLocalTail v) .ret

/-- `memcpy(&buffer[a], args, size)`, byte by byte, where `write a b` stores a byte. -/
def copyTo {O : Type} {Res : O → Type} {Lbl : Type} (write : Nat → Byte → O) (a : Nat) :
    List Byte → Prog O Res Lbl Unit
  | [] => pure ()
  | b :: bs => .op (write a b) fun _ => copyTo write (a + 1) bs

/-- `memcpy(buf, &buffer[a], size)`, byte by byte, where `read a` answers a byte, with the bytes
that end up in `buf`. -/
def copyFrom {O : Type} {Res : O → Type} {Lbl : Type} (read : Nat → O)
    (byte : ∀ a, Res (read a) → Byte) (a : Nat) : Nat → Prog O Res Lbl (List Byte)
  | 0 => pure []
  | size + 1 => .op (read a) fun b => do
    let bs ← copyFrom read byte (a + 1) size
    pure (byte a b :: bs)

/-- `memcpy` into a ring. -/
abbrev memcpyTo (a : Nat) (args : List Byte) : RingProg W Unit := copyTo .writeByte a args

/-- `memcpy` out of a ring. -/
abbrev memcpyFrom (a size : Nat) : RingProg W (List Byte) :=
  copyFrom .readByte (fun _ b => b) a size

/-- The empty test of the Spsc and Mpsc pops: `local_head` is compared with the tail, and
refreshed from `head_` when they agree. -/
def popEmpty (currTail : SizeT) : RingProg SizeT Bool := do
  let localHead ← getLocalHead
  if localHead = currTail then do
    let head ← loadHead
    setLocalHead head
    pure (head = currTail)
  else pure false

/-- A user callback `int cb(const void *p, void *args)` on objects of `n` bytes, given `args`:
the value it returns for `NULL`, and what it reads of an object before it returns. -/
structure Callback (n : Nat) where
  onNull : Int
  onObj : Prog (Fin n) (fun _ => Byte) Empty Int

/-- Code that reads an object, here the object at `a`. -/
def readObj {n : Nat} {α : Type} (a : Nat) : Prog (Fin n) (fun _ => Byte) Empty α → RingProg W α
  | .ret v => .ret v
  | .op j k => .op (.readByte (a + j)) fun b => readObj a (k b)
  | .jump l => l.elim

/-- `cb(p, args)` with `p` into the object area, or `NULL`. -/
def callCb {n : Nat} (cb : Callback n) (p : Option Nat) : RingProg W Int := do
  .op (.callback p) .ret
  match p with
  | none => pure cb.onNull
  | some a => readObj a cb.onObj

/-- What a call returns, with the bytes it left in the caller's buffer. -/
structure Ret where
  rc : Int
  buf : List Byte
  deriving DecidableEq

/-! ## Copies in a protocol -/

section Copies

variable {O : Type} {Res : O → Type} {Lbl Call Ret ρ : Type} {P : Proto O Res Lbl Call Ret ρ}
  {a n : Nat}

/-- A copy into the ring goes through the roles `l 0, l 1, …`, one for each byte written. -/
theorem wp_copyTo {write : Nat → Byte → O} {Q : ρ → Unit → Prop} (l : Nat → ρ) {args : List Byte}
    (h : ∀ j b x, args[j]? = some b → P.trans (l j) (write (a + j) b) x (l (j + 1)))
    (hQ : Q (l args.length) ()) : P.wp (copyTo write a args) Q (l 0) := by
  induction args generalizing a l with
  | nil => exact hQ
  | cons b bs ih =>
    refine fun x => ⟨l 1, h 0 b x rfl, ih (fun j => l (j + 1)) (fun j b' x' hb' => ?_) hQ⟩
    have hnext := h (j + 1) b'
    rw [← Nat.add_assoc, Nat.add_right_comm] at hnext
    exact hnext x' (by simpa using hb')

/-- A copy out of the ring goes through the roles `l bs`, where `bs` are the bytes read. -/
theorem wp_copyFrom {read : Nat → O} {byte : ∀ a, Res (read a) → Byte}
    {Q : ρ → List Byte → Prop} (l : List Byte → ρ) {size : Nat}
    (h : ∀ bs x, bs.length < size →
      P.trans (l bs) (read (a + bs.length)) x (l (bs ++ [byte _ x])))
    (hQ : ∀ bs, bs.length = size → Q (l bs) bs) : P.wp (copyFrom read byte a size) Q (l []) := by
  induction size generalizing a l Q with
  | zero => exact hQ [] rfl
  | succ size ih =>
    refine fun x => ⟨l [byte a x], h [] x (Nat.succ_pos size), ?_⟩
    refine Proto.wp_bind (ih (fun bs => l (byte a x :: bs)) (fun bs x' hlt => ?_) fun bs hbs => ?_)
    · have hnext := h (byte a x :: bs)
      rw [List.length_cons, Nat.add_comm bs.length 1, ← Nat.add_assoc] at hnext
      exact hnext x' (by omega)
    · exact hQ (byte a x :: bs) (by simp [hbs])

end Copies

section RingCopies

omit [Word W]
variable {Call Ret ρ : Type} {P : Proto (Op W) Op.Res Empty Call Ret ρ} {a n : Nat}

theorem wp_memcpyTo {Q : ρ → Unit → Prop} (l : Nat → ρ) {args : List Byte}
    (h : ∀ j b, args[j]? = some b → P.trans (l j) (.writeByte (a + j) b) () (l (j + 1)))
    (hQ : Q (l args.length) ()) : P.wp (memcpyTo a args) Q (l 0) :=
  wp_copyTo l (fun j b _ hb => h j b hb) hQ

theorem wp_memcpyFrom {Q : ρ → List Byte → Prop} (l : List Byte → ρ) {size : Nat}
    (h : ∀ bs b, bs.length < size → P.trans (l bs) (.readByte (a + bs.length)) b (l (bs ++ [b])))
    (hQ : ∀ bs, bs.length = size → Q (l bs) bs) : P.wp (memcpyFrom a size) Q (l []) :=
  wp_copyFrom l h hQ

/-- Code that reads an object in one role stays in it. -/
theorem wp_readObj {α : Type} {Q : ρ → α → Prop} {l : ρ}
    {p : Prog (Fin n) (fun _ => Byte) Empty α}
    (h : ∀ (j : Fin n) b, P.trans l (.readByte (a + j)) b l) (hQ : ∀ v, Q l v) :
    P.wp (readObj a p) Q l := by
  induction p with
  | ret v => exact hQ v
  | op j k ih => exact fun b => ⟨l, h j b, ih b⟩
  | jump l => exact l.elim

end RingCopies

/-! ## Copies by a thread alone -/

/-- The object area after `bs` has been copied to `a`. -/
def putBytes (buffer : Nat → Byte) (a : Nat) : List Byte → Nat → Byte
  | [] => buffer
  | b :: bs => putBytes (Function.update buffer a b) (a + 1) bs

section Alone

variable {t : Tid} {m : Mem W Tid}

theorem run_memcpyTo (a : Nat) (bs : List Byte) :
    (memcpyTo a bs).run (exec t) m = ((), { m with buffer := putBytes m.buffer a bs }) := by
  induction bs generalizing a m with
  | nil => rfl
  | cons b bs ih => exact ih (a + 1)

theorem run_memcpyFrom (a size : Nat) : (memcpyFrom a size).run (exec t) m =
    ((List.range' a size).map m.buffer, m) := by
  induction size generalizing a with
  | zero => rfl
  | succ size ih =>
    show ((memcpyFrom (a + 1) size >>= fun bs => pure (m.buffer a :: bs)).run (exec t) m) = _
    rw [Prog.run_bind, ih, List.range'_succ]
    rfl

/-- What code that reads an object finds in it. -/
theorem run_readObj {n : Nat} {α : Type} (a : Nat) (p : Prog (Fin n) (fun _ => Byte) Empty α) :
    (readObj a p).run (exec t) m =
      ((p.run (fun j buffer => (buffer (a + j), buffer)) m.buffer).1, m) := by
  induction p with
  | ret v => rfl
  | op j k ih => exact ih (m.buffer (a + j))
  | jump l => exact l.elim

/-- What a callback answers on the object at `a`. -/
def Callback.answer {n : Nat} (cb : Callback n) (buffer : Nat → Byte) (a : Nat) : Int :=
  (cb.onObj.run (fun j buffer => (buffer (a + j), buffer)) buffer).1

theorem run_callCb {n : Nat} (cb : Callback n) (a : Nat) :
    (callCb cb (some a)).run (exec t) m = (cb.answer m.buffer a, m) :=
  run_readObj a cb.onObj

end Alone

end RingBuf
