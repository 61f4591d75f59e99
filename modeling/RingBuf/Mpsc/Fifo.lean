import RingBuf.Mpsc.Contents

/-!
# The Mpsc ring is a bounded FIFO

Every run of any number of producers and one consumer at a time on a new ring, with fewer than
`2 ^ 63` successful pushes, is the history of a bounded queue, whatever the other rings of the
consumer's thread leave in `local_head` (`mpsc_fifo`). A producer owns a slot from its
compare-exchange to its slot store, the consumer from the load of a valid status to its slot
store, and these never overlap.
-/

namespace RingBuf

open Conc Word LawfulWord

namespace Mpsc

variable {Tid : Type}

/-! ## Who uses a slot -/

/-- Call `id` of thread `t` is between its compare-exchange for position `p` and the following
store of the slot word. -/
def Writes {n : Nat} (tr : List (Ev Tid n)) (t : Tid) (id : Nat) (p : SizeT) : Prop :=
  Holds takeHead dropSlot tr t id p

/-- The slot whose status a load has found without `SLOT_EMPTY`. -/
def takeStatus : (o : Op SizeT) → o.Res → Option SizeT
  | .loadSlot i, (st : SizeT) => if st &&& slotEmpty = 0 then some i else none
  | _, _ => none

/-- Call `id` of thread `t` has found slot `i` filled and has not yet marked it empty. -/
def Reads {n : Nat} (tr : List (Ev Tid n)) (t : Tid) (id : Nat) (i : SizeT) : Prop :=
  Holds takeStatus dropSlot tr t id i

/-- The position whose slot the role writes. -/
def Role.writing {n : Nat} : Role n → Option SizeT
  | .filling _ p _ => some p
  | _ => none

/-- The slot the role reads. -/
def Role.reading (r : Ring SizeT) : Role r.objSize → Option SizeT
  | .draining _ d _ => some (d &&& r.mask)
  | _ => none

variable {r : Ring SizeT} {tr tr₁ tr₂ : List (Ev Tid r.objSize)} {m : Mem SizeT Tid}
  {R : MRoles Tid r.objSize} {t u : Tid} {id j : Nat} {c : Call r.objSize}
  {l l' : Role r.objSize}

theorem writes_inductive [DecidableEq Tid] {m₀ : Mem SizeT Tid} :
    Inductive (proto r) (sys r Tid) m₀ fun tr _ R =>
      ∀ t id p, Writes tr t id p ↔ ∃ a, R t = some a ∧ a.id = id ∧ a.role.writing = some p := by
  refine held_inductive takeHead dropSlot Role.writing (fun _ => rfl) (fun hm ho => ?_)
    (fun hm ho hd => ?_) (fun hm ho hd => ?_) fun {l v} hf => ?_
  · cases hm <;> cases ho
    exact ⟨rfl, rfl⟩
  · cases hm <;> cases hd <;> rfl
  · cases hm <;> first | rfl | (cases ho; done) | cases hd
  · cases l <;> first | rfl | exact hf.elim

theorem reads_inductive [DecidableEq Tid] {m₀ : Mem SizeT Tid} :
    Inductive (proto r) (sys r Tid) m₀ fun tr _ R =>
      ∀ t id i, Reads tr t id i ↔
        ∃ a, R t = some a ∧ a.id = id ∧ Role.reading r a.role = some i := by
  refine held_inductive takeStatus dropSlot (Role.reading r) (fun _ => rfl) (fun hm ho => ?_)
    (fun hm ho hd => ?_) (fun hm ho hd => ?_) fun {l v} hf => ?_
  · cases hm with
    | refuse hst =>
      rw [takeStatus, if_neg hst] at ho
      cases ho
    | accept hst =>
      rw [takeStatus, if_pos hst] at ho
      exact ⟨rfl, ho⟩
    | _ => cases ho
  · cases hm <;> cases hd <;> rfl
  · cases hm with
    | accept hst =>
      rw [takeStatus, if_pos hst] at ho
      cases ho
    | publish => cases hd
    | clear _ => cases hd
    | _ => rfl
  · cases l <;> first | rfl | exact hf.elim

/-- What is known of a state, with its history of slot uses. -/
structure Users (r : Ring SizeT) (tr : List (Ev Tid r.objSize)) (m : Mem SizeT Tid)
    (R : MRoles Tid r.objSize) : Prop extends Inv r tr m R where
  writes : ∀ t id p, Writes tr t id p ↔ ∃ a, R t = some a ∧ a.id = id ∧ a.role.writing = some p
  reads : ∀ t id i, Reads tr t id i ↔
    ∃ a, R t = some a ∧ a.id = id ∧ Role.reading r a.role = some i

theorem fill_of_writing {a : Active (Call r.objSize) (Role r.objSize)} {p : SizeT}
    (ht : R t = some a) (hp : a.role.writing = some p) :
    (marks m R).fill t = some (toNat p) := by
  obtain ⟨id, c, l⟩ := a
  cases l with
  | filling args h j =>
    obtain rfl : h = p := Option.some.inj hp
    exact fill_of_filling ht
  | _ => cases hp

theorem drain_of_reading {a : Active (Call r.objSize) (Role r.objSize)} {i : SizeT}
    (ht : R t = some a) (hi : Role.reading r a.role = some i) :
    ∃ d, (marks m R).drain t = some d ∧ toNat i = r.index d := by
  obtain ⟨id, c, l⟩ := a
  cases l with
  | draining c' d bs =>
    obtain rfl : d &&& r.mask = i := Option.some.inj hi
    exact ⟨toNat d, drain_of_draining ht, r.toNat_and_mask d⟩
  | _ => cases hi

/-- No two producers write one slot. -/
theorem Users.write_unique {p q : SizeT} (h : Users r tr m R) (ht : Writes tr t id p)
    (hu : Writes tr u j q) (hi : r.index (toNat p) = r.index (toNat q)) :
    t = u ∧ id = j ∧ p = q := by
  obtain ⟨a, ha, rfl, hp⟩ := (h.writes t id p).1 ht
  obtain ⟨b, hb, rfl, hq⟩ := (h.writes u j q).1 hu
  obtain ⟨rfl, hpq⟩ := h.slots.inv.fill_fill (fill_of_writing ha hp) (fill_of_writing hb hq) hi
  obtain rfl : a = b := Option.some.inj (ha.symm.trans hb)
  exact ⟨rfl, rfl, toNat_inj hpq⟩

/-- No producer writes the slot that the consumer reads. -/
theorem Users.write_read {p i : SizeT} (h : Users r tr m R) (ht : Writes tr t id p)
    (hu : Reads tr u j i) : r.index (toNat p) ≠ toNat i := by
  obtain ⟨a, ha, rfl, hp⟩ := (h.writes t id p).1 ht
  obtain ⟨b, hb, rfl, hi⟩ := (h.reads u j i).1 hu
  obtain ⟨d, hd, hid⟩ := drain_of_reading (m := m) hb hi
  rw [hid]
  exact h.slots.inv.fill_drain (fill_of_writing ha hp) hd

/-! ## What a call returns -/

theorem Inv.push_ret {args : List Byte} {v : Ret} (h : Inv r tr m R) (hlt : Bounded tr)
    (ht : R t = some ⟨id, .push args, l⟩) (hfin : (proto r).final l v) :
    (∃ p : SizeT, ⟨t, id, .push args, p⟩ ∈ pushClaims tr ∧ v.rc = (toNat p : Int)) ∨
      (v.rc < 0 ∧ ∀ c ∈ pushClaims tr, c.id ≠ id) := by
  have hof : l.Of (.push args) := h.known.role t _ ht
  have hnone : l.pushPos = none → ∀ c ∈ pushClaims tr, c.id ≠ id := h.known.push.other t _ ht
  cases l with
  | start c =>
    obtain rfl : c = .push args := hof
    obtain ⟨-, rfl⟩ := hfin
    exact .inr ⟨by decide, hnone rfl⟩
  | sawTail args' p d =>
    obtain ⟨-, rfl⟩ := hfin
    exact .inr ⟨by decide, hnone rfl⟩
  | lost =>
    obtain rfl : v = ⟨ringbufContention, []⟩ := hfin
    exact .inr ⟨by decide, hnone rfl⟩
  | pushed p =>
    obtain rfl : v = ⟨toSsize p, []⟩ := hfin
    have hmem := h.known.push.own t _ p ht rfl
    refine .inl ⟨p, hmem, toSsize_of_lt (Nat.lt_trans (h.slots.head.lt hmem) ?_)⟩
    rw [← h.slots.head.length]
    exact hlt
  | empty => cases hof
  | refused => cases hof
  | popped c d bs => cases hof.2.1
  | _ => exact hfin.elim

theorem Inv.pop_ret {others : Option SizeT} {size : Nat} {v : Ret} (h : Inv r tr m R)
    (hlt : Bounded tr) (ht : R t = some ⟨id, .pop others size, l⟩) (hfin : (proto r).final l v) :
    (∃ (d : SizeT) (args : List Byte), ⟨t, id, .pop others size, d⟩ ∈ popClaims tr ∧
      v.rc = (toNat d : Int) ∧ v.buf.length = size ∧ Pushed r tr (toNat d) args ∧
      Agree v.buf (.ofList args)) ∨
      (v.rc < 0 ∧ v.buf = [] ∧ ∀ c ∈ popClaims tr, c.id ≠ id) := by
  have hof : l.Of (.pop others size) := h.known.role t _ ht
  have hnone : l.popPos = none → ∀ c ∈ popClaims tr, c.id ≠ id := h.known.pop.other t _ ht
  cases l with
  | start c =>
    obtain rfl : c = .pop others size := hof
    obtain ⟨-, rfl⟩ := hfin
    exact .inr ⟨by decide, rfl, hnone rfl⟩
  | empty =>
    obtain rfl : v = ⟨ringbufEmpty, []⟩ := hfin
    exact .inr ⟨by decide, rfl, hnone rfl⟩
  | refused =>
    obtain rfl : v = ⟨ringbufSlotWritingData, []⟩ := hfin
    exact .inr ⟨by decide, rfl, hnone rfl⟩
  | popped c d bs =>
    obtain ⟨rfl, -, hlen⟩ := hof
    obtain rfl : v = ⟨toSsize d, bs⟩ := hfin
    have hmem := h.known.pop.own t _ d ht rfl
    have hpos : toNat d < toNat m.tail := h.slots.tail.lt hmem
    have hle : toNat m.tail ≤ toNat m.head := h.slots.inv.tail_le
    have hsmall : toNat d < 2 ^ 63 := by
      have hhead := h.slots.head.length
      simp only [Bounded] at hlt
      omega
    obtain ⟨-, ⟨args, hp, rfl⟩, hg⟩ := h.contents.bytes t _ (toNat d) bs ht rfl
    exact .inl ⟨d, args, hmem, toSsize_of_lt hsmall, hlen others size rfl, hp, hg⟩
  | sawTail args p d => cases hof.1
  | lost => cases hof.choose_spec
  | pushed p => cases hof.choose_spec
  | _ => exact hfin.elim

/-! ## What a call reads and writes -/

theorem Users.write {a : Nat} {b : Byte} (h : Users r tr m R) (ht : R t = some ⟨id, c, l⟩)
    (hm : Trans r l (.writeByte a b) () l') :
    ∃ args p i, c = .push args ∧ ⟨t, id, c, p⟩ ∈ pushClaims tr ∧ Writes tr t id p ∧
      i < r.objSize ∧ a = r.base (toNat p) + i ∧ args[i]? = some b := by
  cases hm with
  | @copyIn args p i _ hb =>
    have hof : c = .push args ∧ args.length ≤ r.objSize := h.known.role t _ ht
    have hi : i < args.length := (List.getElem?_eq_some_iff.1 hb).1
    exact ⟨args, p, i, hof.1, h.known.push.own t _ p ht rfl, (h.writes t id p).2 ⟨_, ht, rfl, rfl⟩,
      Nat.lt_of_lt_of_le hi hof.2, by rw [r.addr_and_mask], hb⟩

/-- The position being read is the next one to be given back. -/
theorem Inv.drain_eq {c' : Call r.objSize} {d : SizeT} {bs : List Byte} (h : Inv r tr m R)
    (ht : R t = some ⟨id, c, .draining c' d bs⟩) : toNat d = (popClaims tr).length := by
  rw [h.slots.tail.length]
  exact (h.slots.inv.drain t _ (drain_of_draining ht)).1

/-- The slot that is read shows only bytes of the element of its position. -/
theorem Inv.read_draining {c' : Call r.objSize} {d : SizeT} {bs : List Byte} {i : Nat}
    (h : Inv r tr m R) (hi : i < r.objSize) (ht : R t = some ⟨id, c, .draining c' d bs⟩) :
    ∃ args, Pushed r tr (toNat d) args ∧
      ∀ y, args[i]? = some y → m.buffer (r.addr (d &&& r.mask) + i) = y := by
  obtain ⟨-, ⟨args, hp, rfl⟩, hc⟩ :=
    h.contents.full _ (full_of_drain h.slots (drain_of_draining ht))
  refine ⟨args, hp, fun y hy => ?_⟩
  rw [r.addr_and_mask]
  exact hc i y hi hy

theorem Users.read {a : Nat} {b : Byte} (h : Users r tr m R) (ht : R t = some ⟨id, c, l⟩)
    (hm : Trans r l (.readByte a) b l') (hb : m.buffer a = b) :
    ∃ i k args, Reads tr t id i ∧ toNat i = r.index (popClaims tr).length ∧ k < r.objSize ∧
      a = r.base (popClaims tr).length + k ∧ Pushed r tr (popClaims tr).length args ∧
      ∀ y, args[k]? = some y → b = y := by
  subst hb
  cases hm with
  | @copyOut others size d bs _ hlt hsize =>
    have hk : bs.length < r.objSize := Nat.lt_of_lt_of_le hlt hsize
    obtain ⟨args, hp, hy⟩ := h.read_draining hk ht
    rw [← h.drain_eq ht]
    exact ⟨d &&& r.mask, bs.length, args, (h.reads t id _).2 ⟨_, ht, rfl, rfl⟩,
      r.toNat_and_mask d, hk, by rw [r.addr_and_mask], hp, hy⟩
  | @readCb others cb d bs _ k hk =>
    obtain ⟨args, hp, hy⟩ := h.read_draining hk ht
    rw [← h.drain_eq ht]
    exact ⟨d &&& r.mask, k, args, (h.reads t id _).2 ⟨_, ht, rfl, rfl⟩,
      r.toNat_and_mask d, hk, by rw [r.addr_and_mask], hp, hy⟩

theorem Inv.callback {x : Option Nat} (h : Inv r tr m R) (ht : R t = some ⟨id, c, l⟩)
    (hm : Trans r l (.callback x) () l') : x = some (r.base (popClaims tr).length) := by
  cases hm with
  | @enterCb others cb d bs => rw [r.addr_and_mask, h.drain_eq ht]

theorem Inv.advance {v : SizeT} (h : Inv r tr m R) (ht : R t = some ⟨id, c, l⟩)
    (hm : Trans r l (.storeTail v) () l') : ∃ args, Pushed r tr (popClaims tr).length args := by
  cases hm with
  | @advance c' d bs =>
    obtain ⟨-, ⟨args, hp, -⟩, -⟩ := h.contents.bytes t _ (toNat d) bs ht rfl
    have hd : toNat d = toNat m.tail := (h.slots.inv.cleared t _ (cleared_of_cleared ht)).1
    rw [h.slots.tail.length, ← hd]
    exact ⟨args, hp⟩

/-! ## Every run -/

/-- `tr` is the history of a bounded FIFO of `r.cap` elements, and it ends in `m`. -/
structure Fifo (r : Ring SizeT) (tr : List (Ev Tid r.objSize)) (m : Mem SizeT Tid) : Prop where
  /-- Pushes take the positions `0, 1, 2, …` in the order of their compare-exchanges. -/
  pushes : Numbered toNat (pushClaims tr) (toNat m.head)
  /-- Pops give back the same positions in the same order, each once. -/
  pops : Numbered toNat (popClaims tr) (toNat m.tail)
  bounds : toNat m.tail ≤ toNat m.head ∧ toNat m.head ≤ toNat m.tail + r.cap
  /-- No call takes or gives back two positions. -/
  push_once : ((pushClaims tr).map Claim.id).Nodup
  pop_once : ((popClaims tr).map Claim.id).Nodup
  /-- A push returns the position it took, or a negative code when it took none. -/
  push_ret : ∀ {tr₁ tr₂ t id args v}, tr = tr₁ ++ .ret t id (.push args) v :: tr₂ →
    (∃ p : SizeT, ⟨t, id, .push args, p⟩ ∈ pushClaims tr₁ ∧ v.rc = (toNat p : Int)) ∨
      (v.rc < 0 ∧ ∀ c ∈ pushClaims tr₁, c.id ≠ id)
  /-- A pop returns the position it gave back, with bytes that agree with those of the push of
  that position, or a negative code when it gave back none. -/
  pop_ret : ∀ {tr₁ tr₂ t id others size v},
    tr = tr₁ ++ .ret t id (.pop others size) v :: tr₂ →
    (∃ (d : SizeT) (args : List Byte), ⟨t, id, .pop others size, d⟩ ∈ popClaims tr₁ ∧
      v.rc = (toNat d : Int) ∧ v.buf.length = size ∧ Pushed r tr₁ (toNat d) args ∧
      Agree v.buf (.ofList args)) ∨
      (v.rc < 0 ∧ v.buf = [] ∧ ∀ c ∈ popClaims tr₁, c.id ≠ id)
  /-- A push writes the bytes it was given, into the slot of the position it took, while it owns
  that slot. -/
  write : ∀ {tr₁ tr₂ t id c a b}, tr = tr₁ ++ .op t id c (.writeByte a b) () :: tr₂ →
    ∃ args p i, c = .push args ∧ ⟨t, id, c, p⟩ ∈ pushClaims tr₁ ∧ Writes tr₁ t id p ∧
      i < r.objSize ∧ a = r.base (toNat p) + i ∧ args[i]? = some b
  /-- A pop reads the element of the next position to be given back, while it owns its slot. -/
  read : ∀ {tr₁ tr₂ t id c a b}, tr = tr₁ ++ .op t id c (.readByte a) b :: tr₂ →
    ∃ i k args, Reads tr₁ t id i ∧ toNat i = r.index (popClaims tr₁).length ∧ k < r.objSize ∧
      a = r.base (popClaims tr₁).length + k ∧ Pushed r tr₁ (popClaims tr₁).length args ∧
      ∀ y, args[k]? = some y → b = y
  /-- A callback is given that element. -/
  callback : ∀ {tr₁ tr₂ t id c x}, tr = tr₁ ++ .op t id c (.callback x) () :: tr₂ →
    x = some (r.base (popClaims tr₁).length)
  /-- A position is given back only after its push has stored `SLOT_VALID`. -/
  published : ∀ {tr₁ tr₂ t id c v}, tr = tr₁ ++ .op t id c (.storeTail v) () :: tr₂ →
    ∃ args, Pushed r tr₁ (popClaims tr₁).length args
  /-- No two producers own one slot. -/
  write_unique : ∀ {t u id j p q}, Writes tr t id p → Writes tr u j q →
    r.index (toNat p) = r.index (toNat q) → t = u ∧ id = j ∧ p = q
  /-- No producer owns the slot that the consumer reads. -/
  write_read : ∀ {t u id j p i}, Writes tr t id p → Reads tr u j i → r.index (toNat p) ≠ toNat i

theorem fresh_getBuf (m : Mem SizeT Tid) : Fresh r (getBuf r .mpscSlot m) where
  head := rfl
  tail := rfl
  slot _ hi := initSlots_apply _ _ _ hi

variable [DecidableEq Tid] {m₀ : Mem SizeT Tid}
  {cf : Config (Op SizeT) Op.Res Empty Tid (Call r.objSize) Ret (Mem SizeT Tid)}

theorem users_run (hf : Fresh r m₀) (h : Run (sys r Tid) (.start m₀) tr cf) (hb : Bounded tr) :
    ∃ R, Users r tr cf.shared R := by
  obtain ⟨R, -, -, ⟨⟨hk, hs⟩, hc⟩, hw, hr⟩ := Inductive.run (follows r Tid)
    ((inv_inductive hf).both (writes_inductive.both reads_inductive)) h
  exact ⟨R, ⟨hk, hs hb, hc hb⟩, hw, hr⟩

theorem users_before_op {o : Op SizeT} {x : o.Res} (hf : Fresh r m₀)
    (h : Run (sys r Tid) (.start m₀) (tr₁ ++ .op t id c o x :: tr₂) cf)
    (hb : Bounded (tr₁ ++ .op t id c o x :: tr₂)) :
    ∃ m R l l', Users r tr₁ m R ∧ R t = some ⟨id, c, l⟩ ∧ Trans r l o x l' ∧
      (exec t o m).1 = x := by
  obtain ⟨n, m, m', R, l, l', -, ⟨⟨⟨hk, hs⟩, hc⟩, hw, hr⟩, ht, hm, he⟩ :=
    Inductive.before_op (follows r Tid)
      ((inv_inductive hf).both (writes_inductive.both reads_inductive)) h
  exact ⟨m, R, l, l', ⟨⟨hk, hs hb.of_append, hc hb.of_append⟩, hw, hr⟩, ht, hm,
    congrArg Prod.fst he⟩

/-- The runs of a fresh ring are those of a bounded FIFO. -/
theorem Fresh.fifo (hf : Fresh r m₀) (h : Run (sys r Tid) (.start m₀) tr cf)
    (hlt : (pushClaims tr).length < 2 ^ 63) : Fifo r tr cf.shared := by
  have hb : Bounded tr := hlt
  have hb' : ∀ {tr₁ tr₂ : List (Ev Tid r.objSize)}, tr = tr₁ ++ tr₂ → Bounded tr₁ := by
    rintro tr₁ tr₂ rfl
    exact hb.of_append
  obtain ⟨R, hi⟩ := users_run hf h hb
  exact {
    pushes := hi.slots.head
    pops := hi.slots.tail
    bounds := ⟨hi.slots.inv.tail_le, hi.slots.inv.head_le⟩
    push_once := hi.known.push.nodup
    pop_once := hi.known.pop.nodup
    push_ret := fun htr => by
      obtain ⟨m, R, l, hi, ht, hfin⟩ := inv_before_ret hf (htr ▸ h) (htr ▸ hb)
      exact hi.push_ret (hb' htr) ht hfin
    pop_ret := fun htr => by
      obtain ⟨m, R, l, hi, ht, hfin⟩ := inv_before_ret hf (htr ▸ h) (htr ▸ hb)
      exact hi.pop_ret (hb' htr) ht hfin
    write := fun htr => by
      obtain ⟨m, R, l, l', hi, ht, hm, -⟩ := users_before_op hf (htr ▸ h) (htr ▸ hb)
      exact hi.write ht hm
    read := fun htr => by
      obtain ⟨m, R, l, l', hi, ht, hm, hx⟩ := users_before_op hf (htr ▸ h) (htr ▸ hb)
      exact hi.read ht hm hx
    callback := fun htr => by
      obtain ⟨m, R, l, l', hi, ht, hm, -⟩ := inv_before_op hf (htr ▸ h) (htr ▸ hb)
      exact hi.callback ht hm
    published := fun htr => by
      obtain ⟨m, R, l, l', hi, ht, hm, -⟩ := inv_before_op hf (htr ▸ h) (htr ▸ hb)
      exact hi.advance ht hm
    write_unique := fun ht hu hi' => hi.write_unique ht hu hi'
    write_read := fun ht hu => hi.write_read ht hu }

/-- A push, and a pop by a thread whose other ring left `5` in `local_head`. -/
def pushPop : List (Bool × Call tinyRing.objSize) := [(true, .push [7]), (false, .pop (some 5) 1)]

end Mpsc

end RingBuf
