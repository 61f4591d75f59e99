import RingBuf.Mpmc.Contents

/-!
# The Mpmc ring is a bounded FIFO

Every run of any number of threads on a new ring, with fewer than `2 ^ 63` successful pushes,
is the history of a bounded queue: pushes and pops take the positions `0, 1, 2, …` in the order
of their compare-exchanges, and the pop of a position reads what the push of that position
wrote (`mpmc_fifo`).
-/

namespace RingBuf

open Conc Word LawfulWord

namespace Mpmc

variable {Tid : Type}

/-- `tr` is the history of a bounded FIFO of `r.cap` elements, and it ends in `m`. -/
structure Fifo (r : Ring SizeT) (tr : List (Ev SizeT Tid r.objSize)) (m : Mem SizeT Tid) :
    Prop where
  /-- Pushes take the positions `0, 1, 2, …` in the order of their compare-exchanges. -/
  pushes : Numbered toNat (pushClaims tr) (toNat m.head)
  /-- Pops take the same positions in the same order, each once. -/
  pops : Numbered toNat (popClaims tr) (toNat m.tail)
  bounds : toNat m.tail ≤ toNat m.head ∧ toNat m.head ≤ toNat m.tail + r.cap
  /-- No call takes two positions. -/
  push_once : ((pushClaims tr).map Claim.id).Nodup
  pop_once : ((popClaims tr).map Claim.id).Nodup
  /-- A push returns the position it took, or a negative code when it took none. -/
  push_ret : ∀ {tr₁ tr₂ t id args v}, tr = tr₁ ++ .ret t id (.push args) v :: tr₂ →
    (∃ p : SizeT, ⟨t, id, .push args, p⟩ ∈ pushClaims tr₁ ∧ v.rc = (toNat p : Int)) ∨
      (v.rc < 0 ∧ ∀ c ∈ pushClaims tr₁, c.id ≠ id)
  /-- A pop returns the position it took, with bytes that agree with those of the push of that
  position, or a negative code when it took none. -/
  pop_ret : ∀ {tr₁ tr₂ t id size v}, tr = tr₁ ++ .ret t id (.pop size) v :: tr₂ →
    (∃ (d : SizeT) (args : List Byte), ⟨t, id, .pop size, d⟩ ∈ popClaims tr₁ ∧
      v.rc = (toNat d : Int) ∧ v.buf.length = size ∧ Pushed r tr₁ (toNat d) args ∧
      Agree v.buf (.ofList args)) ∨
      (v.rc < 0 ∧ v.buf = [] ∧ ∀ c ∈ popClaims tr₁, c.id ≠ id)
  /-- A push writes the bytes it was given, into the slot of the position it took. -/
  write : ∀ {tr₁ tr₂ t id c a b}, tr = tr₁ ++ .op t id c (.writeByte a b) () :: tr₂ →
    ∃ args p j, c = .push args ∧ ⟨t, id, c, p⟩ ∈ pushClaims tr₁ ∧ a = r.base (toNat p) + j ∧
      args[j]? = some b
  /-- Whatever a pop or its callback reads is a byte of the element of the position it took. -/
  read : ∀ {tr₁ tr₂ t id c a b}, tr = tr₁ ++ .op t id c (.readByte a) b :: tr₂ →
    ∃ d j args, ⟨t, id, c, d⟩ ∈ popClaims tr₁ ∧ j < r.objSize ∧ a = r.base (toNat d) + j ∧
      Pushed r tr₁ (toNat d) args ∧ ∀ y, args[j]? = some y → b = y
  /-- A callback is given the element of the position its pop took. -/
  callback : ∀ {tr₁ tr₂ t id c x}, tr = tr₁ ++ .op t id c (.callback x) () :: tr₂ →
    ∃ d, ⟨t, id, c, d⟩ ∈ popClaims tr₁ ∧ x = some (r.base (toNat d))
  /-- A position is taken by a pop only after its push has stored the slot word. -/
  published : ∀ {tr₁ tr₂ t id c e d}, tr = tr₁ ++ .op t id c (.casTail e d) true :: tr₂ →
    ∃ args, Pushed r tr₁ (toNat e) args

variable {r : Ring SizeT} {tr tr₁ tr₂ : List (Ev SizeT Tid r.objSize)} {t : Tid} {id : Nat}
  {m : Mem SizeT Tid} {R : MRoles Tid SizeT r.objSize} {l : Role SizeT r.objSize}

theorem noOverflow_of_lt (h : (pushClaims tr).length < 2 ^ 63) : NoOverflow r tr := by
  show (pushClaims tr).length + r.cap < 2 ^ 64
  have := r.cap_le
  omega

theorem fresh_getBuf (m : Mem SizeT Tid) : Fresh r (getBuf r .mpmcSlot m) where
  head := rfl
  tail := rfl
  slot _ hi := initSlots_apply _ _ _ hi

/-! ## What a call returns -/

/-- The position of a call is a number of its own among fewer than `2 ^ 63`. -/
theorem Inv.toSsize_push (h : Inv r tr m R) (hlt : (pushClaims tr).length < 2 ^ 63)
    {k : Claim Tid (Call r.objSize) SizeT} (hk : k ∈ pushClaims tr) :
    toSsize k.pos = toNat k.pos := by
  refine toSsize_of_lt (Nat.lt_trans (h.slots.head.lt hk) ?_)
  rwa [← h.slots.head.length]

theorem Inv.toSsize_pop (h : Inv r tr m R) (hlt : (pushClaims tr).length < 2 ^ 63)
    {k : Claim Tid (Call r.objSize) SizeT} (hk : k ∈ popClaims tr) :
    toSsize k.pos = toNat k.pos := by
  have hpos : toNat k.pos < toNat m.tail := h.slots.tail.lt hk
  have hle : toNat m.tail ≤ toNat m.head := h.slots.inv.tail_le
  have hlen := h.slots.head.length
  exact toSsize_of_lt (by omega)

theorem Inv.push_ret {args : List Byte} {v : Ret} (h : Inv r tr m R)
    (hlt : (pushClaims tr).length < 2 ^ 63) (ht : R t = some ⟨id, .push args, l⟩)
    (hfin : (proto r).final l v) :
    (∃ p : SizeT, ⟨t, id, .push args, p⟩ ∈ pushClaims tr ∧ v.rc = (toNat p : Int)) ∨
      (v.rc < 0 ∧ ∀ c ∈ pushClaims tr, c.id ≠ id) := by
  have hof : l.Of (.push args) := h.known.role t _ ht
  have hnone : l.pushPos = none → ∀ c ∈ pushClaims tr, c.id ≠ id := h.known.push.other t _ ht
  cases l with
  | start c =>
    obtain rfl : c = .push args := hof
    obtain ⟨-, rfl⟩ := hfin
    exact .inr ⟨by decide, hnone rfl⟩
  | sawPushSeq args' p seq =>
    refine .inr ⟨?_, hnone rfl⟩
    rcases hfin with ⟨-, rfl⟩ | ⟨-, rfl⟩
    · decide
    · decide
  | lost =>
    obtain rfl : v = ⟨ringbufContention, []⟩ := hfin
    exact .inr ⟨by decide, hnone rfl⟩
  | pushed p =>
    obtain rfl : v = ⟨toSsize p, []⟩ := hfin
    have hmem := h.known.push.own t _ p ht rfl
    exact .inl ⟨p, hmem, h.toSsize_push hlt hmem⟩
  | sawPopSeq c d seq => exact absurd rfl (hof.2 args)
  | popped c d bs => exact absurd rfl (hof.2.1 args)
  | _ => exact hfin.elim

theorem Inv.pop_ret {size : Nat} {v : Ret} (h : Inv r tr m R)
    (hlt : (pushClaims tr).length < 2 ^ 63) (ht : R t = some ⟨id, .pop size, l⟩)
    (hfin : (proto r).final l v) :
    (∃ (d : SizeT) (args : List Byte), ⟨t, id, .pop size, d⟩ ∈ popClaims tr ∧
      v.rc = (toNat d : Int) ∧ v.buf.length = size ∧ Pushed r tr (toNat d) args ∧
      Agree v.buf (.ofList args)) ∨
      (v.rc < 0 ∧ v.buf = [] ∧ ∀ c ∈ popClaims tr, c.id ≠ id) := by
  have hof : l.Of (.pop size) := h.known.role t _ ht
  have hnone : l.popPos = none → ∀ c ∈ popClaims tr, c.id ≠ id := h.known.pop.other t _ ht
  cases l with
  | start c =>
    obtain rfl : c = .pop size := hof
    obtain ⟨-, rfl⟩ := hfin
    exact .inr ⟨by decide, rfl, hnone rfl⟩
  | sawPopSeq c d seq =>
    refine .inr ?_
    rcases hfin with ⟨-, rfl⟩ | ⟨-, rfl⟩
    · exact ⟨by decide, rfl, hnone rfl⟩
    · exact ⟨by decide, rfl, hnone rfl⟩
  | lost =>
    obtain rfl : v = ⟨ringbufContention, []⟩ := hfin
    exact .inr ⟨by decide, rfl, hnone rfl⟩
  | popped c d bs =>
    obtain ⟨rfl, -, hlen⟩ := hof
    obtain rfl : v = ⟨toSsize d, bs⟩ := hfin
    have hmem := h.known.pop.own t _ d ht rfl
    obtain ⟨-, ⟨args, hp, rfl⟩, hg⟩ := h.contents.bytes t _ (toNat d) bs ht rfl
    exact .inl ⟨d, args, hmem, h.toSsize_pop hlt hmem, hlen size rfl, hp, hg⟩
  | sawPushSeq args p seq => cases hof.1
  | pushed p => cases hof.choose_spec
  | _ => exact hfin.elim

/-! ## What a call reads and writes -/

variable {c : Call r.objSize} {l' : Role SizeT r.objSize}

theorem Inv.write {a : Nat} {b : Byte} (h : Inv r tr m R) (ht : R t = some ⟨id, c, l⟩)
    (hm : Trans r l (.writeByte a b) () l') :
    ∃ args p j, c = .push args ∧ ⟨t, id, c, p⟩ ∈ pushClaims tr ∧ a = r.base (toNat p) + j ∧
      args[j]? = some b := by
  cases hm with
  | @copyIn args p j _ hb =>
    have hof : c = .push args ∧ args.length ≤ r.objSize := h.known.role t _ ht
    exact ⟨args, p, j, hof.1, h.known.push.own t _ p ht rfl, by rw [r.addr_and_mask], hb⟩

/-- A claimed slot shows only bytes of the element of its position. -/
theorem Inv.read_draining {c' : Call r.objSize} {d : SizeT} {bs : List Byte} {j : Nat}
    (h : Inv r tr m R) (hj : j < r.objSize) (ht : R t = some ⟨id, c, .draining c' d bs⟩) :
    ∃ args, Pushed r tr (toNat d) args ∧
      ∀ y, args[j]? = some y → m.buffer (r.addr (d &&& r.mask) + j) = y := by
  obtain ⟨-, ⟨args, hp, rfl⟩, hc⟩ :=
    h.contents.full _ (full_of_drain h.slots (drain_of_draining ht))
  refine ⟨args, hp, fun y hy => ?_⟩
  rw [r.addr_and_mask]
  exact hc j y hj hy

theorem Inv.read {a : Nat} {b : Byte} (h : Inv r tr m R) (ht : R t = some ⟨id, c, l⟩)
    (hm : Trans r l (.readByte a) b l') (hb : m.buffer a = b) :
    ∃ d j args, ⟨t, id, c, d⟩ ∈ popClaims tr ∧ j < r.objSize ∧ a = r.base (toNat d) + j ∧
      Pushed r tr (toNat d) args ∧ ∀ y, args[j]? = some y → b = y := by
  subst hb
  cases hm with
  | @copyOut size d bs _ hlt hsize =>
    obtain ⟨args, hp, hy⟩ := h.read_draining (Nat.lt_of_lt_of_le hlt hsize) ht
    exact ⟨d, bs.length, args, h.known.pop.own t _ d ht rfl, by omega, by rw [r.addr_and_mask],
      hp, hy⟩
  | @readCb cb d bs _ j hj =>
    obtain ⟨args, hp, hy⟩ := h.read_draining hj ht
    exact ⟨d, j, args, h.known.pop.own t _ d ht rfl, hj, by rw [r.addr_and_mask], hp, hy⟩

theorem Inv.callback {x : Option Nat} (h : Inv r tr m R) (ht : R t = some ⟨id, c, l⟩)
    (hm : Trans r l (.callback x) () l') :
    ∃ d, ⟨t, id, c, d⟩ ∈ popClaims tr ∧ x = some (r.base (toNat d)) := by
  cases hm with
  | @enterCb cb d bs =>
    exact ⟨d, h.known.pop.own t _ d ht rfl, by rw [r.addr_and_mask]⟩

theorem Inv.published [DecidableEq Tid] {e d : SizeT} (h : Inv r tr m R)
    (hlt : (pushClaims tr).length < 2 ^ 63) (ht : R t = some ⟨id, c, l⟩)
    (hm : Trans r l (.casTail e d) true l')
    (hx : (exec t (.casTail e d) m).1 = true) : ∃ args, Pushed r tr (toNat e) args := by
  cases hm with
  | @claimTail c' _ seq hdif =>
    obtain ⟨htail, -⟩ := exec_casTail (Prod.ext hx rfl : _ = (true, _))
    obtain ⟨-, hready⟩ := h.slots.knows t _ ht
    have hle : toNat m.tail ≤ toNat m.head := h.slots.inv.tail_le
    have hbig : Fits SizeT (toNat m.head + r.cap) := h.slots.head.length ▸ noOverflow_of_lt hlt
    have hadd : toNat (e + 1) = toNat e + 1 :=
      toNat_succ (htail ▸ hle) (Nat.le_of_succ_le r.two_le_cap) hbig
    have hseq : toNat seq = toNat e + 1 := by rw [dif_eq_zero.1 hdif, hadd]
    obtain ⟨-, ⟨args, hp, -⟩, -⟩ := h.contents.full _ (hready hseq (congrArg toNat htail)).1
    exact ⟨args, hp⟩

/-! ## Every run -/

variable [DecidableEq Tid] {m₀ : Mem SizeT Tid}
  {cf : Config (Op SizeT) Op.Res Empty Tid (Call r.objSize) Ret (Mem SizeT Tid)}

/-- The runs of a fresh ring are those of a bounded FIFO. -/
theorem Fresh.fifo (hf : Fresh r m₀) (h : Run (sys r Tid) (.start m₀) tr cf)
    (hlt : (pushClaims tr).length < 2 ^ 63) : Fifo r tr cf.shared := by
  have hb : NoOverflow r tr := noOverflow_of_lt hlt
  have hlt' : ∀ {tr₁ tr₂ : List (Ev SizeT Tid r.objSize)}, tr = tr₁ ++ tr₂ →
      (pushClaims tr₁).length < 2 ^ 63 := by
    rintro tr₁ tr₂ rfl
    exact Nat.lt_of_le_of_lt (length_claims_le tr₂) hlt
  obtain ⟨R, -, hi⟩ := inv_run hf h hb
  exact {
    pushes := hi.slots.head
    pops := hi.slots.tail
    bounds := ⟨hi.slots.inv.tail_le, hi.slots.inv.head_le⟩
    push_once := hi.known.push.nodup
    pop_once := hi.known.pop.nodup
    push_ret := fun htr => by
      obtain ⟨m, R, l, hi, ht, hfin⟩ := inv_before_ret hf (htr ▸ h) (htr ▸ hb)
      exact hi.push_ret (hlt' htr) ht hfin
    pop_ret := fun htr => by
      obtain ⟨m, R, l, hi, ht, hfin⟩ := inv_before_ret hf (htr ▸ h) (htr ▸ hb)
      exact hi.pop_ret (hlt' htr) ht hfin
    write := fun htr => by
      obtain ⟨m, R, l, l', hi, ht, hm, -⟩ := inv_before_op hf (htr ▸ h) (htr ▸ hb)
      exact hi.write ht hm
    read := fun htr => by
      obtain ⟨m, R, l, l', hi, ht, hm, hx⟩ := inv_before_op hf (htr ▸ h) (htr ▸ hb)
      exact hi.read ht hm hx
    callback := fun htr => by
      obtain ⟨m, R, l, l', hi, ht, hm, -⟩ := inv_before_op hf (htr ▸ h) (htr ▸ hb)
      exact hi.callback ht hm
    published := fun htr => by
      obtain ⟨m, R, l, l', hi, ht, hm, hx⟩ := inv_before_op hf (htr ▸ h) (htr ▸ hb)
      exact hi.published (hlt' htr) ht hm hx }

/-- A push and a pop by two threads. -/
def pushPop : List (Bool × Call tinyRing.objSize) := [(true, .push [7]), (false, .pop 1)]

end Mpmc

end RingBuf
