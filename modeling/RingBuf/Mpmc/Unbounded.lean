import RingBuf.Conc.Lockstep
import RingBuf.Mpmc.Invariant

/-!
# Mpmc counters may wrap

The functions of the Mpmc ring are written over any `Word`. With 64-bit words they are the program;
with natural numbers they are the same ring with counters that never wrap. The two run in lockstep,
whatever the interleaving and however long the run, if during no single call the other threads
advance `head_` or `tail_` by `2 ^ 62` (`mpmc_lockstep`): a stale counter is then so close to the
slot word that the signed difference of the words is the difference of the numbers.
-/

namespace RingBuf

open Conc Word LawfulWord

/-! ## Words and the numbers behind them -/

section Words

variable {a b : Nat}

theorem ofNat_succ (a : Nat) : (ofNat (a + 1) : SizeT) = ofNat a + 1 := BitVec.ofNat_add ..

/-- Numbers less than a lap of the words apart have different words. -/
theorem ofNat_eq_iff (h : a ≤ b) (hlt : b < a + 2 ^ 64) : (ofNat b : SizeT) = ofNat a ↔ b = a := by
  constructor
  · intro he
    have hmod : b % 2 ^ 64 = a % 2 ^ 64 := by
      have := congrArg BitVec.toNat he
      rwa [show (ofNat b : SizeT) = BitVec.ofNat 64 b from rfl,
        show (ofNat a : SizeT) = BitVec.ofNat 64 a from rfl, BitVec.toNat_ofNat,
        BitVec.toNat_ofNat] at this
    exact eq_of_mod_eq hmod hlt (by omega)
  · rintro rfl
    rfl

/-- The signed difference of two words is the difference of numbers less than half a lap apart. -/
theorem dif_ofNat (h₁ : a < b + 2 ^ 63) (h₂ : b < a + 2 ^ 63) :
    dif (ofNat a : SizeT) (ofNat b) = dif a b := by
  show (BitVec.ofNat 64 a - BitVec.ofNat 64 b).toInt = (a : Int) - b
  rw [BitVec.toInt_sub, BitVec.toInt_ofNat', BitVec.toInt_ofNat', Int.bmod_sub_bmod,
    Int.sub_bmod_bmod]
  exact Int.bmod_eq_of_le (by omega) (by omega)

end Words

namespace Ring

/-- The same ring with counters that never wrap. -/
@[reducible] def unbounded (r : Ring SizeT) : Ring Nat where
  objSize := r.objSize
  objNum := r.cap
  mask := toNat r.mask
  exists_pow := r.exists_pow
  mask_succ := r.mask_succ

variable (r : Ring SizeT)

theorem index_mod (p : Nat) : r.index (p % 2 ^ 64) = r.index p := by
  obtain ⟨k, -, h⟩ := r.exists_pow
  have hk : r.cap ∣ 2 ^ 64 := by
    have hlt : r.cap < 2 ^ 64 := r.objNum.isLt
    rw [cap, h] at hlt ⊢
    exact Nat.pow_dvd_pow 2 ((Nat.pow_lt_pow_iff_right (by decide)).1 hlt).le
  exact Nat.mod_mod_of_dvd p hk

theorem mask_ofNat (p : Nat) :
    toNat ((ofNat p : SizeT) &&& r.mask) = toNat (p &&& r.unbounded.mask) := by
  rw [r.toNat_and_mask, r.unbounded.toNat_and_mask]
  show r.index (BitVec.ofNat 64 p).toNat = r.index p
  rw [BitVec.toNat_ofNat, r.index_mod]

theorem ofNat_add_objNum (p : Nat) :
    (ofNat p : SizeT) + r.objNum = ofNat (p + r.unbounded.objNum) := by
  show BitVec.ofNat 64 p + r.objNum = BitVec.ofNat 64 (p + r.objNum.toNat)
  rw [BitVec.ofNat_add, BitVec.ofNat_toNat, BitVec.setWidth_eq]

theorem addr_ofNat (p : Nat) :
    r.addr ((ofNat p : SizeT) &&& r.mask) = r.unbounded.addr (p &&& r.unbounded.mask) := by
  rw [addr, r.mask_ofNat]
  rfl

end Ring

namespace Mpmc

/-! ## What counts as the same -/

/-- Operations of the program and of the unbounded ring that count as the same: the counters and
slot words are equal modulo `2 ^ 64`; slots, addresses, bytes and the outcomes of
compare-exchanges are equal. -/
inductive SameOp : (o : Op SizeT) → o.Res → (o' : Op Nat) → o'.Res → Prop
  | loadHead {h h'} : h = ofNat h' → SameOp .loadHead h .loadHead h'
  | loadTail {d d'} : d = ofNat d' → SameOp .loadTail d .loadTail d'
  | casHead {e d e' d'} {ok : Bool} : e = ofNat e' → d = ofNat d' →
      SameOp (.casHead e d) ok (.casHead e' d') ok
  | casTail {e d e' d'} {ok : Bool} : e = ofNat e' → d = ofNat d' →
      SameOp (.casTail e d) ok (.casTail e' d') ok
  | loadSlot {i i' v v'} : toNat i = i' → v = ofNat v' → SameOp (.loadSlot i) v (.loadSlot i') v'
  | storeSlot {i i' v v'} : toNat i = i' → v = ofNat v' →
      SameOp (.storeSlot i v) () (.storeSlot i' v') ()
  | readByte {a b} : SameOp (.readByte a) b (.readByte a) b
  | writeByte {a b} : SameOp (.writeByte a b) () (.writeByte a b) ()
  | callback {p} : SameOp (.callback p) () (.callback p) ()

theorem SameOp.loadHead_eq {h : SizeT} {h' : Nat} (hs : SameOp .loadHead h .loadHead h') :
    h = ofNat h' := by
  cases hs
  assumption

theorem SameOp.loadTail_eq {d : SizeT} {d' : Nat} (hs : SameOp .loadTail d .loadTail d') :
    d = ofNat d' := by
  cases hs
  assumption

theorem SameOp.loadSlot_eq {i v : SizeT} {i' v' : Nat}
    (hs : SameOp (.loadSlot i) v (.loadSlot i') v') : v = ofNat v' := by
  cases hs
  assumption

theorem SameOp.casHead_eq {e d : SizeT} {e' d' : Nat} {ok ok' : Bool}
    (hs : SameOp (.casHead e d) ok (.casHead e' d') ok') : ok = ok' := by
  cases hs
  rfl

theorem SameOp.casTail_eq {e d : SizeT} {e' d' : Nat} {ok ok' : Bool}
    (hs : SameOp (.casTail e d) ok (.casTail e' d') ok') : ok = ok' := by
  cases hs
  rfl

/-- Results that count as the same: codes, the values of callbacks and bytes are equal, and
positions are equal modulo `2 ^ 64`. -/
inductive SameRet {n : Nat} : Call n → Ret → Ret → Prop
  | code {c rc} : rc < 0 → SameRet c ⟨rc, []⟩ ⟨rc, []⟩
  | push {args} {p : Nat} : SameRet (.push args) ⟨toSsize (ofNat p : SizeT), []⟩ ⟨toSsize p, []⟩
  | pop {size buf} {p : Nat} :
      SameRet (.pop size) ⟨toSsize (ofNat p : SizeT), buf⟩ ⟨toSsize p, buf⟩
  | popWCb {cb rc} : SameRet (.popWCb cb) ⟨rc, []⟩ ⟨rc, []⟩

/-- The program against the unbounded ring. -/
abbrev wraps (n : Nat) : Match (Op SizeT) Op.Res (Op Nat) Op.Res (Call n) Ret Ret :=
  ⟨SameOp, SameRet⟩

/-- The counters and the slot words are equal modulo `2 ^ 64`, and the objects are the same. -/
structure SameMem {Tid : Type} (r : Ring SizeT) (m : Mem SizeT Tid) (m' : Mem Nat Tid) : Prop where
  head : m.head = ofNat m'.head
  tail : m.tail = ofNat m'.tail
  slot : ∀ i < r.cap, m.slot i = ofNat (m'.slot i)
  buffer : m.buffer = m'.buffer

/-- The slot word that a thread has read is less than half a lap of the words from what the
thread compares it with. -/
def Near {n : Nat} : Role Nat n → Prop
  | .sawPushSeq _ h seq => seq < h + 2 ^ 63 ∧ h < seq + 2 ^ 63
  | .sawPopSeq _ d seq => seq < d + 1 + 2 ^ 63 ∧ d + 1 < seq + 2 ^ 63
  | _ => True

/-! ## The functions are locked -/

section Lock

variable {r : Ring SizeT}

/-- The lock of two programs of a call. -/
abbrev LockBody (r : Ring SizeT) (c : Call r.objSize) : Prop :=
  (proto r.unbounded).lock (wraps r.objSize) Near (body r c) (body r.unbounded c)
    (fun l v v' => SameRet c v v' ∧ (proto r.unbounded).final l v') (.start c)

theorem lock_memcpyTo {a : Nat} {args : List Byte} {l : Nat → Role Nat r.objSize}
    {Q : Role Nat r.objSize → Unit → Unit → Prop}
    (h : ∀ j b, args[j]? = some b →
      Trans r.unbounded (l j) (.writeByte (a + j) b) () (l (j + 1)))
    (hQ : Q (l args.length) () ()) :
    (proto r.unbounded).lock (wraps r.objSize) Near (memcpyTo a args) (memcpyTo a args) Q
      (l 0) := by
  induction args generalizing a l with
  | nil => exact hQ
  | cons b bs ih =>
    refine Proto.lock_op (fun _ => ⟨(), .writeByte⟩) fun _ _ _ => ⟨l 1, h 0 b rfl, fun _ => ?_⟩
    refine ih (l := fun j => l (j + 1)) (fun j b' hb' => ?_) hQ
    have hnext := h (j + 1) b' (by simpa using hb')
    rwa [← Nat.add_assoc, Nat.add_right_comm] at hnext

theorem lock_memcpyFrom {a size : Nat} {l : List Byte → Role Nat r.objSize}
    {Q : Role Nat r.objSize → List Byte → List Byte → Prop}
    (h : ∀ bs b, bs.length < size →
      Trans r.unbounded (l bs) (.readByte (a + bs.length)) b (l (bs ++ [b])))
    (hQ : ∀ bs, bs.length = size → Q (l bs) bs bs) :
    (proto r.unbounded).lock (wraps r.objSize) Near (memcpyFrom a size) (memcpyFrom a size) Q
      (l []) := by
  induction size generalizing a l Q with
  | zero => exact hQ [] rfl
  | succ size ih =>
    refine Proto.lock_op (fun b => ⟨b, .readByte⟩) fun b b' hb => ?_
    cases hb
    refine ⟨l [b], h [] b (Nat.succ_pos size), fun _ => Proto.lock_bind ?_⟩
    refine ih (l := fun bs => l (b :: bs)) (fun bs b' hlt => ?_) fun bs hbs => ?_
    · have hnext := h (b :: bs) b' (by simpa using hlt)
      rwa [List.length_cons, Nat.add_comm bs.length 1, ← Nat.add_assoc] at hnext
    · exact hQ (b :: bs) (by simp [hbs])

theorem lock_readObj {n a : Nat} {α : Type} {l : Role Nat r.objSize}
    {Q : Role Nat r.objSize → α → α → Prop} {p : Prog (Fin n) (fun _ => Byte) Empty α}
    (h : ∀ (j : Fin n) b, Trans r.unbounded l (.readByte (a + j)) b l) (hQ : ∀ v, Q l v v) :
    (proto r.unbounded).lock (wraps r.objSize) Near (readObj a p) (readObj a p) Q l := by
  induction p with
  | ret v => exact hQ v
  | op j k ih =>
    refine Proto.lock_op (fun b => ⟨b, .readByte⟩) fun b b' hb => ?_
    cases hb
    exact ⟨l, h j b, fun _ => ih b⟩
  | jump l => exact l.elim

theorem lock_push (args : List Byte) : LockBody r (.push args) := by
  refine Proto.lock_bind ?_
  unfold pushMpmcRingBuf
  by_cases hsize : args.length > r.objSize
  · rw [if_pos hsize, if_pos (show args.length > r.unbounded.objSize from hsize)]
    exact ⟨.code (by decide), hsize, rfl⟩
  · rw [if_neg hsize, if_neg (show ¬args.length > r.unbounded.objSize from hsize)]
    simp only [Prog.op_bind, Prog.ret_bind]
    refine Proto.lock_op (fun h => ⟨_, .loadHead rfl⟩) fun _ h hh => ?_
    obtain rfl := hh.loadHead_eq
    refine ⟨_, .loadHead (Nat.le_of_not_lt hsize), fun _ => ?_⟩
    refine Proto.lock_op (fun seq => ⟨_, .loadSlot (r.mask_ofNat h) rfl⟩) fun _ seq hseq => ?_
    obtain rfl := hseq.loadSlot_eq
    refine ⟨_, .pushSeq, fun hnear => ?_⟩
    rw [dif_ofNat hnear.1 hnear.2]
    by_cases hpos : dif seq h > 0
    · rw [if_pos hpos, if_pos hpos]
      exact ⟨.code (by decide), .inl ⟨hpos, rfl⟩⟩
    rw [if_neg hpos, if_neg hpos]
    by_cases hneg : dif seq h < 0
    · rw [if_pos hneg, if_pos hneg]
      exact ⟨.code (by decide), .inr ⟨hneg, rfl⟩⟩
    rw [if_neg hneg, if_neg hneg]
    rw [← ofNat_succ]
    refine Proto.lock_op (fun ok => ⟨ok, .casHead rfl rfl⟩) fun ok claimed hc => ?_
    obtain rfl := hc.casHead_eq
    cases ok with
    | false => exact ⟨_, .missHead, fun _ => ⟨.code (by decide), rfl⟩⟩
    | true =>
      refine ⟨_, .claimHead (by omega), fun _ => Proto.lock_bind ?_⟩
      rw [r.addr_ofNat]
      refine lock_memcpyTo (l := fun j => .filling args h j) (fun j b hb => .copyIn hb) ?_
      refine Proto.lock_op (fun _ => ⟨(), .storeSlot (r.mask_ofNat h) rfl⟩) fun _ _ _ => ?_
      exact ⟨_, .publish, fun _ => ⟨.push, rfl⟩⟩

/-- The claim of the two pops, with the codes they return and what they do with the object. -/
theorem lock_claimTail {c : Call r.objSize} {α : Type} {contention empty : α}
    {K : SizeT → RingProg SizeT α} {K' : Nat → RingProg Nat α}
    {Q : Role Nat r.objSize → α → α → Prop} (hpush : ∀ args, c ≠ .push args)
    (hsize : ∀ size, c = .pop size → size ≤ r.objSize)
    (hcont : ∀ d seq, dif seq (d + 1) > 0 → Q (.sawPopSeq c d seq) contention contention)
    (hempty : ∀ d seq, dif seq (d + 1) < 0 → Q (.sawPopSeq c d seq) empty empty)
    (hlost : Q .lost contention contention)
    (hK : ∀ d, (proto r.unbounded).lock (wraps r.objSize) Near (K (ofNat d)) (K' d) Q
      (.draining c d [])) :
    (proto r.unbounded).lock (wraps r.objSize) Near
      (do
        let expectedTail ← loadTail
        let seq ← loadSlot (expectedTail &&& r.mask)
        if dif seq (expectedTail + 1) > 0 then pure contention
        else if dif seq (expectedTail + 1) < 0 then pure empty
        else do
          let claimed ← casTail expectedTail (expectedTail + 1)
          if claimed then K expectedTail else pure contention)
      (do
        let expectedTail ← loadTail
        let seq ← loadSlot (expectedTail &&& r.unbounded.mask)
        if dif seq (expectedTail + 1) > 0 then pure contention
        else if dif seq (expectedTail + 1) < 0 then pure empty
        else do
          let claimed ← casTail expectedTail (expectedTail + 1)
          if claimed then K' expectedTail else pure contention)
      Q (.start c) := by
  simp only [Prog.op_bind, Prog.ret_bind]
  refine Proto.lock_op (fun d => ⟨_, .loadTail rfl⟩) fun _ d hd => ?_
  obtain rfl := hd.loadTail_eq
  refine ⟨_, .loadTail hpush hsize, fun _ => ?_⟩
  refine Proto.lock_op (fun seq => ⟨_, .loadSlot (r.mask_ofNat d) rfl⟩) fun _ seq hseq => ?_
  obtain rfl := hseq.loadSlot_eq
  refine ⟨_, .popSeq, fun hnear => ?_⟩
  rw [← ofNat_succ, dif_ofNat hnear.1 hnear.2]
  by_cases hpos : dif seq (d + 1) > 0
  · rw [if_pos hpos, if_pos hpos]
    exact hcont d seq hpos
  rw [if_neg hpos, if_neg hpos]
  by_cases hneg : dif seq (d + 1) < 0
  · rw [if_pos hneg, if_pos hneg]
    exact hempty d seq hneg
  rw [if_neg hneg, if_neg hneg]
  refine Proto.lock_op (fun ok => ⟨ok, .casTail rfl rfl⟩) fun ok claimed hc => ?_
  obtain rfl := hc.casTail_eq
  cases ok with
  | false => exact ⟨_, .missTail, fun _ => hlost⟩
  | true => exact ⟨_, .claimTail (by omega), fun _ => hK d⟩

theorem lock_pop (size : Nat) : LockBody r (.pop size) := by
  refine Proto.lock_bind ?_
  unfold popMpmcRingBuf
  by_cases hsize : size > r.objSize
  · rw [if_pos hsize, if_pos (show size > r.unbounded.objSize from hsize)]
    exact ⟨.code (by decide), hsize, rfl⟩
  · rw [if_neg hsize, if_neg (show ¬size > r.unbounded.objSize from hsize)]
    refine lock_claimTail (by simp) (by rintro _ ⟨⟩; omega)
      (fun d seq h => ⟨.code (by decide), .inl ⟨h, rfl⟩⟩)
      (fun d seq h => ⟨.code (by decide), .inr ⟨h, rfl⟩⟩) ⟨.code (by decide), rfl⟩ fun d => ?_
    rw [r.addr_ofNat]
    refine Proto.lock_bind (lock_memcpyFrom (l := fun bs => .draining (.pop size) d bs)
      (fun bs b hlt => .copyOut hlt (Nat.le_of_not_lt hsize)) fun bs hbs => ?_)
    refine Proto.lock_op
      (fun _ => ⟨(), .storeSlot (r.mask_ofNat d) (r.ofNat_add_objNum d)⟩) fun _ _ _ => ?_
    exact ⟨_, .release (by rintro _ ⟨⟩; exact hbs), fun _ => ⟨.pop, rfl⟩⟩

theorem lock_popWCb (cb : Callback r.objSize) : LockBody r (.popWCb cb) := by
  refine Proto.lock_bind ?_
  unfold popWCbMpmcRingBuf
  refine lock_claimTail (by simp) (by simp)
    (fun d seq h => ⟨.code (by decide), .inl ⟨h, rfl⟩⟩)
    (fun d seq h => ⟨.code (by decide), .inr ⟨h, rfl⟩⟩) ⟨.code (by decide), rfl⟩ fun d => ?_
  rw [r.addr_ofNat]
  refine Proto.lock_op (fun _ => ⟨(), .callback⟩) fun _ _ _ => ⟨_, .enterCb, fun _ => ?_⟩
  refine Proto.lock_bind (lock_readObj (fun j b => .readCb j.isLt) fun rc => ?_)
  refine Proto.lock_op
    (fun _ => ⟨(), .storeSlot (r.mask_ofNat d) (r.ofNat_add_objNum d)⟩) fun _ _ _ => ?_
  exact ⟨_, .release (by simp), fun _ => ⟨.popWCb, rfl⟩⟩

end Lock

/-! ## Every move -/

/-- The head that a push has read and not yet claimed. -/
def Role.sawHead? {n : Nat} : Role Nat n → Option Nat
  | .sawHead _ h | .sawPushSeq _ h _ => some h
  | _ => none

/-- The tail that a pop has read and not yet claimed. -/
def Role.sawTail? {n : Nat} : Role Nat n → Option Nat
  | .sawTail _ d | .sawPopSeq _ d _ => some d
  | _ => none

variable {Tid : Type} [DecidableEq Tid] {r : Ring SizeT}

/-- During no single call do the other threads advance `head_` or `tail_` by `2 ^ 62`. -/
def Unhurried {W : Type} {n : Nat} (tr : List (Ev W Tid n)) : Prop :=
  Calm takeHead (2 ^ 62) tr ∧ Calm takeTail (2 ^ 62) tr

/-- What holds of the two memories while the two rings run in lockstep. -/
structure Wrapped (r : Ring SizeT) (tr : List (Ev Nat Tid r.unbounded.objSize))
    (m : Mem SizeT Tid) (m' : Mem Nat Tid) (R : MRoles Tid Nat r.unbounded.objSize) : Prop where
  same : SameMem r m m'
  slots : Disciplined r.unbounded m' R
  head : Stale takeHead Role.sawHead? tr m'.head R
  tail : Stale takeTail Role.sawTail? tr m'.tail R

variable {tr : List (Ev Nat Tid r.unbounded.objSize)} {m : Mem SizeT Tid} {m' m₁' : Mem Nat Tid}
  {R : MRoles Tid Nat r.unbounded.objSize} {t : Tid} {id : Nat} {c : Call r.unbounded.objSize}
  {l l' : Role Nat r.unbounded.objSize} {o : Op SizeT} {x : o.Res} {o' : Op Nat} {x' : o'.Res}

/-- A slot word is near a head that a thread has read during its call. -/
theorem Wrapped.near_head (h : Wrapped r tr m m' R) (hcap : r.cap ≤ 2 ^ 57) (hB : Unhurried tr)
    (ht : R t = some ⟨id, c, l⟩) {w : Nat} (hw : l.sawHead? = some w) (hle : w ≤ m'.head) :
    m'.slot (r.index w) < w + 2 ^ 63 ∧ w < m'.slot (r.index w) + 2 ^ 63 := by
  have hlt := h.head.lt hB.1 ht hw
  have hslot := h.slots.inv.seq_near r.two_le_cap w
  have htail : m'.tail ≤ m'.head := h.slots.inv.tail_le
  have hhead : m'.head ≤ m'.tail + r.cap := h.slots.inv.head_le
  change m'.tail < m'.slot (r.index w) + r.cap ∧ m'.slot (r.index w) ≤ m'.tail + r.cap at hslot
  omega

theorem Wrapped.near_tail (h : Wrapped r tr m m' R) (hcap : r.cap ≤ 2 ^ 57) (hB : Unhurried tr)
    (ht : R t = some ⟨id, c, l⟩) {w : Nat} (hw : l.sawTail? = some w) (hle : w ≤ m'.tail) :
    m'.slot (r.index w) < w + 1 + 2 ^ 63 ∧ w + 1 < m'.slot (r.index w) + 2 ^ 63 := by
  have hlt := h.tail.lt hB.2 ht hw
  have hslot := h.slots.inv.seq_near r.two_le_cap w
  change m'.tail < m'.slot (r.index w) + r.cap ∧ m'.slot (r.index w) ≤ m'.tail + r.cap at hslot
  omega

/-- A compare-exchange on `head_` against a value that is not a whole lap behind. -/
theorem SameMem.casHead (h : SameMem r m m') {p : Nat} (d : Nat) (hle : p ≤ m'.head)
    (hlt : m'.head < p + 2 ^ 64) :
    (exec t (.casHead (ofNat p) (ofNat d)) m).1 = (exec t (.casHead p d) m').1 ∧
      SameMem r (exec t (.casHead (ofNat p) (ofNat d)) m).2 (exec t (.casHead p d) m').2 := by
  have hiff : m.head = ofNat p ↔ m'.head = p := h.head ▸ ofNat_eq_iff hle hlt
  simp only [exec]
  by_cases hp : m'.head = p
  · rw [if_pos hp, if_pos (hiff.2 hp)]
    exact ⟨rfl, rfl, h.tail, h.slot, h.buffer⟩
  · rw [if_neg hp, if_neg fun he => hp (hiff.1 he)]
    exact ⟨rfl, h⟩

theorem SameMem.casTail (h : SameMem r m m') {p : Nat} (d : Nat) (hle : p ≤ m'.tail)
    (hlt : m'.tail < p + 2 ^ 64) :
    (exec t (.casTail (ofNat p) (ofNat d)) m).1 = (exec t (.casTail p d) m').1 ∧
      SameMem r (exec t (.casTail (ofNat p) (ofNat d)) m).2 (exec t (.casTail p d) m').2 := by
  have hiff : m.tail = ofNat p ↔ m'.tail = p := h.tail ▸ ofNat_eq_iff hle hlt
  simp only [exec]
  by_cases hp : m'.tail = p
  · rw [if_pos hp, if_pos (hiff.2 hp)]
    exact ⟨rfl, h.head, rfl, h.slot, h.buffer⟩
  · rw [if_neg hp, if_neg fun he => hp (hiff.1 he)]
    exact ⟨rfl, h⟩

theorem SameMem.storeSlot (h : SameMem r m m') {i : SizeT} {i' : Nat} (hi : toNat i = i')
    (v : Nat) :
    SameMem r (exec t (.storeSlot i (ofNat v)) m).2 (exec t (.storeSlot i' v) m').2 where
  head := h.head
  tail := h.tail
  slot j hj := by
    show Function.update m.slot (toNat i) (ofNat v) j = ofNat (Function.update m'.slot i' v j)
    rw [hi]
    by_cases hij : j = i'
    · simp [hij]
    · simpa [hij] using h.slot j hj
  buffer := h.buffer

theorem SameMem.readByte (h : SameMem r m m') (a : Nat) :
    (exec t (.readByte a) m).1 = (exec t (.readByte a) m').1 := congrFun h.buffer a

/-- An operation of both rings: the answers are the same, a slot word that is read is near, and
the memories stay the same. -/
theorem Wrapped.exec (h : Wrapped r tr m m' R) (hcap : r.cap ≤ 2 ^ 57) (hB : Unhurried tr)
    (ht : R t = some ⟨id, c, l⟩) (hs : SameOp o x o' x') (hm : Trans r.unbounded l o' x' l')
    (he : exec t o' m' = (x', m₁')) :
    SameOp o (RingBuf.exec t o m).1 o' x' ∧ Near l' ∧ SameMem r (RingBuf.exec t o m).2 m₁' := by
  have hknow := h.slots.knows t _ ht
  have hsame := h.same
  -- A slot word that is read is the same in both rings.
  have hslot (p : Nat) : (p &&& r.unbounded.mask) = r.index p := r.unbounded.toNat_and_mask p
  have hread (p : Nat) : m.slot (p &&& r.unbounded.mask) =
      ofNat (m'.slot (p &&& r.unbounded.mask)) := by
    rw [hslot]
    exact hsame.slot _ (r.index_lt p)
  cases hm with
  | loadHead _ =>
    obtain ⟨rfl, rfl⟩ := Prod.mk.inj he
    cases hs
    exact ⟨.loadHead hsame.head, trivial, hsame⟩
  | @pushSeq args p seq =>
    obtain ⟨rfl, rfl⟩ := Prod.mk.inj he
    cases hs with
    | loadSlot hi hv =>
      refine ⟨.loadSlot hi ?_, ?_, hsame⟩
      · exact (congrArg m.slot hi).trans (hread p)
      · show Near (.sawPushSeq args p (m'.slot (p &&& r.unbounded.mask)))
        rw [hslot]
        exact h.near_head hcap hB ht rfl hknow
  | @claimHead args p seq hdif =>
    cases hs with
    | casHead h₁ h₂ =>
      subst h₁ h₂
      have hlt := h.head.lt hB.1 ht rfl
      obtain ⟨hans, hmem⟩ := hsame.casHead (t := t) (p := p) (p + 1) hknow.1 (by omega)
      rw [he] at hans hmem
      rw [hans]
      exact ⟨.casHead rfl rfl, trivial, hmem⟩
  | @missHead args p seq =>
    cases hs with
    | casHead h₁ h₂ =>
      subst h₁ h₂
      have hlt := h.head.lt hB.1 ht rfl
      obtain ⟨hans, hmem⟩ := hsame.casHead (t := t) (p := p) (p + 1) hknow.1 (by omega)
      rw [he] at hans hmem
      rw [hans]
      exact ⟨.casHead rfl rfl, trivial, hmem⟩
  | copyIn hb =>
    obtain ⟨-, rfl⟩ := Prod.mk.inj he
    cases hs
    refine ⟨.writeByte, trivial, hsame.head, hsame.tail, hsame.slot, ?_⟩
    simp only [RingBuf.exec, hsame.buffer]
  | publish =>
    obtain ⟨-, rfl⟩ := Prod.mk.inj he
    cases hs with
    | storeSlot hi hv =>
      subst hv
      exact ⟨.storeSlot hi rfl, trivial, hsame.storeSlot (t := t) hi _⟩
  | loadTail _ _ =>
    obtain ⟨rfl, rfl⟩ := Prod.mk.inj he
    cases hs
    exact ⟨.loadTail hsame.tail, trivial, hsame⟩
  | @popSeq c' p seq =>
    obtain ⟨rfl, rfl⟩ := Prod.mk.inj he
    cases hs with
    | loadSlot hi hv =>
      refine ⟨.loadSlot hi ?_, ?_, hsame⟩
      · exact (congrArg m.slot hi).trans (hread p)
      · show Near (.sawPopSeq c' p (m'.slot (p &&& r.unbounded.mask)))
        rw [hslot]
        exact h.near_tail hcap hB ht rfl hknow
  | @claimTail c' p seq hdif =>
    cases hs with
    | casTail h₁ h₂ =>
      subst h₁ h₂
      have hlt := h.tail.lt hB.2 ht rfl
      obtain ⟨hans, hmem⟩ := hsame.casTail (t := t) (p := p) (p + 1) hknow.1 (by omega)
      rw [he] at hans hmem
      rw [hans]
      exact ⟨.casTail rfl rfl, trivial, hmem⟩
  | @missTail c' p seq =>
    cases hs with
    | casTail h₁ h₂ =>
      subst h₁ h₂
      have hlt := h.tail.lt hB.2 ht rfl
      obtain ⟨hans, hmem⟩ := hsame.casTail (t := t) (p := p) (p + 1) hknow.1 (by omega)
      rw [he] at hans hmem
      rw [hans]
      exact ⟨.casTail rfl rfl, trivial, hmem⟩
  | copyOut hlt hsize =>
    obtain ⟨rfl, rfl⟩ := Prod.mk.inj he
    cases hs
    rw [hsame.readByte (t := t)]
    exact ⟨.readByte, trivial, hsame⟩
  | enterCb =>
    obtain ⟨-, rfl⟩ := Prod.mk.inj he
    cases hs
    exact ⟨.callback, trivial, hsame⟩
  | readCb hj =>
    obtain ⟨rfl, rfl⟩ := Prod.mk.inj he
    cases hs
    rw [hsame.readByte (t := t)]
    exact ⟨.readByte, trivial, hsame⟩
  | release hsize =>
    obtain ⟨-, rfl⟩ := Prod.mk.inj he
    cases hs with
    | storeSlot hi hv =>
      subst hv
      exact ⟨.storeSlot hi rfl, trivial, hsame.storeSlot (t := t) hi _⟩

theorem Trans.saw_head (hm : Trans r.unbounded l o' x' l') (he : exec t o' m' = (x', m₁')) {w : Nat}
    (hw : l'.sawHead? = some w) : m₁'.head ≤ w ∨ l.sawHead? = some w ∧ m₁'.head ≤ m'.head := by
  cases hm with
  | loadHead _ =>
    obtain ⟨rfl, rfl⟩ := Prod.mk.inj he
    exact .inl (Option.some.inj hw).le
  | pushSeq =>
    obtain ⟨-, rfl⟩ := Prod.mk.inj he
    exact .inr ⟨hw, le_rfl⟩
  | _ => cases hw

theorem Trans.saw_tail (hm : Trans r.unbounded l o' x' l') (he : exec t o' m' = (x', m₁')) {w : Nat}
    (hw : l'.sawTail? = some w) : m₁'.tail ≤ w ∨ l.sawTail? = some w ∧ m₁'.tail ≤ m'.tail := by
  cases hm with
  | loadTail _ _ =>
    obtain ⟨rfl, rfl⟩ := Prod.mk.inj he
    exact .inl (Option.some.inj hw).le
  | popSeq =>
    obtain ⟨-, rfl⟩ := Prod.mk.inj he
    exact .inr ⟨hw, le_rfl⟩
  | _ => cases hw

theorem Wrapped.op (h : Wrapped r tr m m' R) (hcap : r.cap ≤ 2 ^ 57) (hB : Unhurried tr)
    (ht : R t = some ⟨id, c, l⟩) (hs : SameOp o x o' x') (hm : Trans r.unbounded l o' x' l')
    (he : RingBuf.exec t o' m' = (x', m₁')) :
    Wrapped r (tr ++ [.op t id c o' x']) (RingBuf.exec t o m).2 m₁'
      (Function.update R t (some ⟨id, c, l'⟩)) where
  same := (h.exec hcap hB ht hs hm he).2.2
  slots := h.slots.op trivial ht hm he
  head := by
    refine h.head.op ht ?_ fun w hw => hm.saw_head he hw
    rcases hm.head he with ⟨ho, hh⟩ | ⟨ho, hh⟩
    · exact hh.le.trans (Nat.le_add_right ..)
    · rw [ho, hh]
      exact le_rfl
  tail := by
    refine h.tail.op ht ?_ fun w hw => hm.saw_tail he hw
    rcases hm.tail he with ⟨ho, hh⟩ | ⟨ho, hh⟩
    · exact hh.le.trans (Nat.le_add_right ..)
    · rw [ho, hh]
      exact le_rfl

/-! ## Every run -/

/-- An empty ring whose counters stand at `k`, with the slots that the next lap finds. -/
structure StartsAt {W Tid : Type} [Word W] (r : Ring W) (k : Nat) (m : Mem W Tid) : Prop where
  head : m.head = ofNat k
  tail : m.tail = ofNat k
  slot : ∀ i < r.cap, m.slot i = ofNat (k + i)

variable {k : Nat} {m₀ : Mem SizeT Tid} {m₀' : Mem Nat Tid}

theorem StartsAt.wrapped (hk : r.cap ∣ k) (h : StartsAt r k m₀) (h' : StartsAt r.unbounded k m₀')
    (hbuf : m₀.buffer = m₀'.buffer) : Wrapped r [] m₀ m₀' fun _ => none where
  same := by
    refine ⟨?_, ?_, fun i hi => ?_, hbuf⟩
    · rw [h.head, h'.head]
      rfl
    · rw [h.tail, h'.tail]
      rfl
    · rw [h.slot i hi, h'.slot i hi]
      rfl
  slots := by
    refine ⟨Slots.inv_start r.two_le_cap hk (fun i hi => ?_) h'.head h'.tail (by simp [slots])
      (by simp [slots]), by simp⟩
    exact h'.slot i hi
  head := .nil
  tail := .nil

/-- The program and the unbounded ring run in lockstep. -/
theorem wrapped_lockstep (hcap : r.cap ≤ 2 ^ 57) (hk : r.cap ∣ k) (h : StartsAt r k m₀)
    (h' : StartsAt r.unbounded k m₀') (hbuf : m₀.buffer = m₀'.buffer) :
    Lockstep (proto r.unbounded) (wraps r.objSize) Near exec exec (body r) (body r.unbounded) m₀ m₀'
      Unhurried (Wrapped r) where
  body
    | .push args => lock_push args
    | .pop size => lock_pop size
    | .popWCb cb => lock_popWCb cb
  init := h.wrapped hk h' hbuf
  call _ hw ht := ⟨hw.same, hw.slots.call ht _ _, hw.head.call ht rfl, hw.tail.call ht rfl⟩
  op hB hw ht hs hm := by
    obtain ⟨hans, hnear, -⟩ := hw.exec hcap hB ht hs hm rfl
    exact ⟨hans, hnear, hw.op hcap hB ht hs hm rfl⟩
  ret _ hw ht hfin := ⟨hw.same, hw.slots.ret ht hfin, hw.head.ret ht, hw.tail.ret ht⟩

theorem SameOp.takeHead_isSome (h : SameOp o x o' x') :
    (takeHead o x).isSome = (takeHead o' x').isSome := by
  cases h with
  | @casHead _ _ _ _ ok => cases ok <;> rfl
  | _ => rfl

theorem SameOp.takeTail_isSome (h : SameOp o x o' x') :
    (takeTail o x).isSome = (takeTail o' x').isSome := by
  cases h with
  | @casTail _ _ _ _ ok => cases ok <;> rfl
  | _ => rfl

theorem Unhurried.same {tr : List (Ev SizeT Tid r.objSize)} {tr' : List (Ev Nat Tid r.objSize)}
    (h : List.Forall₂ (wraps r.objSize).Same tr tr') (hB : Unhurried tr) : Unhurried tr' :=
  ⟨hB.1.same (fun _ _ _ _ => SameOp.takeHead_isSome) h,
    hB.2.same (fun _ _ _ _ => SameOp.takeTail_isSome) h⟩

/-- A run of the program and one of the unbounded ring: the same threads make the same calls,
perform the same operations and return the same, event by event, and they end alike. -/
structure SideBySide (r : Ring SizeT) (tr : List (Ev SizeT Tid r.objSize))
    (c : Config (Op SizeT) Op.Res Empty Tid (Call r.objSize) Ret (Mem SizeT Tid))
    (tr' : List (Ev Nat Tid r.objSize))
    (c' : Config (Op Nat) Op.Res Empty Tid (Call r.objSize) Ret (Mem Nat Tid)) : Prop where
  events : List.Forall₂ (wraps r.objSize).Same tr tr'
  memory : SameMem r c.shared c'.shared
  calls : ∀ t, (c.thread t).call? = (c'.thread t).call?

/-- **Mpmc counters may wrap.** From any multiple `k` of the capacity, every run of the program has
a run of the unbounded ring beside it, and every run of the unbounded ring one of the program. -/
theorem mpmc_lockstep (hcap : r.cap ≤ 2 ^ 57) (hk : r.cap ∣ k) (h : StartsAt r k m₀)
    (h' : StartsAt r.unbounded k m₀') (hbuf : m₀.buffer = m₀'.buffer) :
    (∀ {tr c}, Run (sys r Tid) (.start m₀) tr c → Unhurried tr →
      ∃ tr' c', Run (sys r.unbounded Tid) (.start m₀') tr' c' ∧ SideBySide r tr c tr' c') ∧
    (∀ {tr' c'}, Run (sys r.unbounded Tid) (.start m₀') tr' c' → Unhurried tr' →
      ∃ tr c, Run (sys r Tid) (.start m₀) tr c ∧ SideBySide r tr c tr' c') := by
  have hL := wrapped_lockstep hcap hk h h' hbuf
  constructor
  · intro tr c hrun hB
    obtain ⟨tr', c', R, hrun', htr, hb⟩ := hL.forth (fun tr₁ tr₂ tr₁' he h₁ => by
      subst he
      exact Unhurried.same h₁ ⟨hB.1.of_append, hB.2.of_append⟩) hrun
    exact ⟨tr', c', hrun', htr, hb.state.same, fun t => (hb.thread t).call?⟩
  · intro tr' c' hrun hB
    obtain ⟨tr, c, R, hrun', htr, hb⟩ := hL.back (fun tr₁ tr₂ he => by
      subst he
      exact ⟨hB.1.of_append, hB.2.of_append⟩) hrun
    exact ⟨tr, c, hrun', htr, hb.state.same, fun t => (hb.thread t).call?⟩

/-- An empty ring whose counters stand at `k`. -/
def emptyAt (W Tid : Type) [Word W] (k : Nat) : Mem W Tid :=
  ⟨ofNat k, ofNat k, fun i => ofNat (k + i), fun _ => 0, fun _ => 0, fun _ => 0⟩

/-- Two threads that take the counters past `2 ^ 64`. -/
def wrapAround : List (Bool × Call tinyRing.objSize) :=
  [(true, .push [7]), (false, .pop 1), (true, .push [8]), (false, .pop 1), (true, .push [9])]

theorem mpmc_lockstep_wrapAround :
    ∃ tr' c', Run (sys tinyRing.unbounded Bool) (.start (emptyAt Nat Bool (2 ^ 64 - 2))) tr' c' ∧
      SideBySide tinyRing
        (seqTrace exec (body tinyRing) wrapAround 0 (emptyAt SizeT Bool (2 ^ 64 - 2)))
        ⟨seqState exec (body tinyRing) wrapAround (emptyAt SizeT Bool (2 ^ 64 - 2)),
          fun _ => .idle, 0 + wrapAround.length⟩ tr' c' :=
  (mpmc_lockstep (by decide) (by decide) ⟨rfl, rfl, fun _ _ => rfl⟩ ⟨rfl, rfl, fun _ _ => rfl⟩
    rfl).1 (Run.seq wrapAround (fun _ _ => trivial) 0 _)
    ⟨calm_of_length (by decide), calm_of_length (by decide)⟩

end Mpmc

end RingBuf
