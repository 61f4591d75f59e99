import RingBuf.Callbacks
import RingBuf.Mpmc.Fifo

/-!
# The Mpmc ring is linearizable

Every run on a new ring, with fewer than `2 ^ 63` successful pushes, is linearized by the successful
compare-exchanges (`mpmc_linearized`): a push puts its element into the queue when it takes a
position from `head_`, before it has copied a byte, and a pop takes the oldest element out when it
takes a position from `tail_`. The position each of them returns is the number of the element in the
queue. A call that returns an error code had no effect.
-/

namespace RingBuf

open Conc Word LawfulWord

namespace Mpmc

variable {Tid : Type} {r : Ring SizeT}

/-- The bytes a push puts into its element. -/
def Call.elem {n : Nat} : Call n → Elem
  | .push args => .ofList args
  | _ => fun _ => none

/-- The effect a call may have. -/
inductive Effect {n : Nat} : Call n → Act Elem → Prop
  | push {args k} : Effect (.push args) (.enq k (.ofList args))
  | pop {size k e} : Effect (.pop size) (.deq k e)
  | popWCb {cb k e} : Effect (.popWCb cb) (.deq k e)

/-- What a call returns after its effect, or without one. -/
inductive Returns {n : Nat} : Call n → Ret → Option (Act Elem) → Prop
  | pushed {args} {k : Nat} : Returns (.push args) ⟨k, []⟩ (some (.enq k (.ofList args)))
  | popped {size} {k : Nat} {bs e} : bs.length = size → Agree bs e →
      Returns (.pop size) ⟨k, bs⟩ (some (.deq k e))
  | answered {cb k v e} : Reads cb.onObj e v → Returns (.popWCb cb) ⟨v, []⟩ (some (.deq k e))
  | refused {c rc} : rc < 0 → Returns c ⟨rc, []⟩ none

/-- Pushes take effect when they take a position from `head_`, pops when they take one from
`tail_`. -/
def queueOps (n : Nat) : QueueOps (Op SizeT) Op.Res (Call n) SizeT Elem where
  put := takeHead
  take := takeTail
  elem := Call.elem
  apart o x := by
    cases o with
    | casHead e d => exact .inr rfl
    | _ => exact .inl rfl

/-! ## What a call has done when it returns -/

section Returned

variable {ops : List ((o : Op SizeT) × o.Res)} {v : Ret}

theorem buf_of_push {args : List Byte} (h : (body r (.push args)).Takes ops v) : v.buf = [] := by
  obtain ⟨rc, -, -, -, -, -, rfl⟩ := h.bind
  rfl

/-- A pop with a callback was refused, or has taken a position and returns what the callback has
answered on the bytes of its slot. -/
theorem takes_popWCb {cb : Callback r.objSize} (h : (body r (.popWCb cb)).Takes ops v) :
    v.buf = [] ∧ ((v.rc < 0 ∧ ∀ x ∈ ops, takeTail x.1 x.2 = none) ∨
      ∃ (d : SizeT) (reads : List ((_ : Fin r.objSize) × Byte)),
        ⟨.casTail d (d + 1), true⟩ ∈ ops ∧ cb.onObj.Takes reads v.rc ∧
        ∀ x ∈ reads,
          (⟨.readByte (r.base (toNat d) + x.1), x.2⟩ : (o : Op SizeT) × o.Res) ∈ ops) := by
  obtain ⟨rc, ops, ops', rfl, hpop, rfl, rfl⟩ := h.bind
  rw [List.append_nil]
  refine ⟨rfl, ?_⟩
  simp only [popWCbMpmcRingBuf, Prog.op_bind, Prog.ret_bind] at hpop
  obtain ⟨d, -, rfl, seq, ops, rfl, hdif⟩ := hpop
  beta_reduce at hdif
  split at hdif
  case isTrue hpos =>
    obtain ⟨rfl, rfl⟩ := hdif
    exact .inl ⟨by decide, by simp [takeTail]⟩
  case isFalse hpos =>
    split at hdif
    case isTrue hneg =>
      obtain ⟨rfl, rfl⟩ := hdif
      exact .inl ⟨by decide, by simp [takeTail]⟩
    case isFalse hneg =>
      obtain ⟨claimed, ops, rfl, hcas⟩ := hdif
      cases claimed with
      | false =>
        obtain ⟨rfl, rfl⟩ := hcas
        exact .inl ⟨by decide, by simp [takeTail]⟩
      | true =>
        obtain ⟨rc', ops₁, ops₂, rfl, hcb, -, -, rfl, rfl, rfl⟩ := hcas.bind
        obtain ⟨_, ops₁, rfl, hread⟩ := hcb
        obtain ⟨reads, htakes, hmem⟩ := takes_readObj hread
        refine .inr ⟨d, reads, by simp, htakes, fun x hx => ?_⟩
        have hx := hmem x hx
        rw [r.addr_and_mask] at hx
        simp [hx]

end Returned

/-! ## Every run -/

variable [DecidableEq Tid] {tr tr₁ tr₂ : List (Ev SizeT Tid r.objSize)} {m₀ : Mem SizeT Tid}
  {cf : Config (Op SizeT) Op.Res Empty Tid (Call r.objSize) Ret (Mem SizeT Tid)}
  {c : Claim Tid (Call r.objSize) SizeT}

theorem push_of_claim (h : Run (sys r Tid) (.start m₀) tr cf) (hc : c ∈ pushClaims tr) :
    ∃ args, c.call = .push args := by
  obtain ⟨o, x, he, hx⟩ := exists_op_of_mem_claims hc
  obtain ⟨tr₁, tr₂, rfl⟩ := List.append_of_mem he
  obtain ⟨n, m, m', R, l, l', -, hk, ht, hm, -⟩ :=
    Inductive.before_op (follows r Tid) known_inductive h
  have hof := hk.role _ _ ht
  cases hm with
  | claimHead _ => exact ⟨_, hof.1⟩
  | _ => cases hx

theorem pop_of_claim (h : Run (sys r Tid) (.start m₀) tr cf) (hc : c ∈ popClaims tr)
    (args : List Byte) : c.call ≠ .push args := by
  obtain ⟨o, x, he, hx⟩ := exists_op_of_mem_claims hc
  obtain ⟨tr₁, tr₂, rfl⟩ := List.append_of_mem he
  obtain ⟨n, m, m', R, l, l', -, hk, ht, hm, -⟩ :=
    Inductive.before_op (follows r Tid) known_inductive h
  have hof := hk.role _ _ ht
  cases hm with
  | claimTail _ => exact hof.2 args
  | _ => cases hx

variable {m : Mem SizeT Tid} {R : MRoles Tid SizeT r.objSize} {t : Tid} {id : Nat}
  {a : Call r.objSize} {v : Ret}

omit [DecidableEq Tid] in
theorem Inv.bounded (h : Inv r tr m R) : (queueOps r.objSize).Bounded [] r.cap tr :=
  QueueOps.bounded_of_numbered h.slots.head h.slots.tail ⟨h.slots.inv.tail_le, h.slots.inv.head_le⟩

omit [DecidableEq Tid] in
theorem Inv.inserted {k : Nat} {args : List Byte} (h : Inv r tr m R) (hp : Pushed r tr k args) :
    ((queueOps r.objSize).inserted [] tr)[k]? = some (.ofList args) := by
  obtain ⟨t, id, p, hmem, rfl, -⟩ := hp
  have hget := h.slots.head.getElem?_of_mem hmem
  exact QueueOps.inserted_of_claim (V := queueOps r.objSize) hget

/-- What a pop has read of the slot of its position are bytes of the element of that position. -/
theorem Inv.reads {d : SizeT} (hf : Fresh r m₀) (h : Run (sys r Tid) (.start m₀) tr cf)
    (hb : NoOverflow r tr) (hi : Inv r tr m R) (hd : ⟨t, id, a, d⟩ ∈ popClaims tr) {e : Elem}
    (he : ((queueOps r.objSize).inserted [] tr)[toNat d]? = some e) {j : Nat} {b : Byte}
    (hj : j < r.objSize) (hop : ⟨.readByte (r.base (toNat d) + j), b⟩ ∈ opsOf id tr) {y : Byte}
    (hy : e j = some y) : b = y := by
  obtain ⟨u, a', hop⟩ := exists_of_mem_opsOf hop
  obtain ⟨tr₁, tr₂, rfl⟩ := List.append_of_mem hop
  obtain ⟨m₁, R₁, l, l', hi₁, ht, hm, hx⟩ := inv_before_op hf h hb
  obtain ⟨d', j', args, hd', hj', haddr, hp, hread⟩ := hi₁.read ht hm hx
  have hd' := mem_claims_append hd' (.op u id a' (.readByte (r.base (toNat d) + j)) b :: tr₂)
  -- The call has one position only.
  have heq := List.inj_on_of_nodup_map hi.known.pop.nodup hd hd' rfl
  simp only [Claim.mk.injEq] at heq
  obtain ⟨-, -, -, rfl⟩ := heq
  obtain ⟨-, rfl⟩ := Ring.base_add_inj hj hj' haddr
  rw [hi.inserted (hp.append _)] at he
  obtain rfl := Option.some.inj he
  exact hread y hy

theorem Fresh.returns (hf : Fresh r m₀)
    (h : Run (sys r Tid) (.start m₀) (tr₁ ++ .ret t id a v :: tr₂) cf)
    (hlt : (pushClaims (tr₁ ++ .ret t id a v :: tr₂)).length < 2 ^ 63)
    (hspec : (queueOps r.objSize).LinSpec [] r.cap tr₁) :
    (∃ e, (id, e) ∈ ((queueOps r.objSize).lin [] tr₁).acts ∧ Returns a v (some e)) ∨
      ((∀ d ∈ pushClaims tr₁, d.id ≠ id) ∧ (∀ d ∈ popClaims tr₁, d.id ≠ id) ∧
        Returns a v none) := by
  have hret : .ret t id a v ∈ tr₁ ++ .ret t id a v :: tr₂ :=
    List.mem_append_right _ (List.mem_cons_self ..)
  have htakes := h.takes
  have hlt₁ : (pushClaims tr₁).length < 2 ^ 63 :=
    Nat.lt_of_le_of_lt (length_claims_le (.ret t id a v :: tr₂)) hlt
  obtain ⟨m, R, l, hi, ht, hfin⟩ := inv_before_ret hf h (noOverflow_of_lt hlt)
  -- A push takes nothing from `tail_`, and a pop nothing from `head_`.
  have hno : ∀ args, a = .push args → ∀ d ∈ popClaims tr₁, d.id ≠ id := by
    rintro args rfl d hd rfl
    have hd := mem_claims_append hd (.ret t d.id (.push args) v :: tr₂)
    exact pop_of_claim h hd args (h.claim_of_ret hret hd).2
  have hno' : (∀ args, a ≠ .push args) → ∀ d ∈ pushClaims tr₁, d.id ≠ id := by
    rintro ha d hd rfl
    have hd := mem_claims_append hd (.ret t d.id a v :: tr₂)
    obtain ⟨args, hargs⟩ := push_of_claim h hd
    exact ha args ((h.claim_of_ret hret hd).2.symm.trans hargs)
  obtain ⟨rc, buf⟩ := v
  cases a with
  | push args =>
    obtain rfl : buf = [] := buf_of_push htakes
    rcases hi.push_ret hlt₁ ht hfin with ⟨p, hmem, hrc⟩ | ⟨hneg, hnone⟩
    · obtain rfl : rc = _ := hrc
      have hput := hspec.put (hi.slots.head.getElem?_of_mem hmem)
      rw [List.length_nil, Nat.zero_add] at hput
      exact .inl ⟨_, hput, .pushed⟩
    · exact .inr ⟨hnone, hno args rfl, .refused hneg⟩
  | pop size =>
    have hpush := hno' (by simp)
    rcases hi.pop_ret hlt₁ ht hfin with ⟨d, args, hmem, hrc, hlen, hp, hagree⟩ | ⟨hneg, hbuf, hnone⟩
    · obtain rfl : rc = _ := hrc
      exact .inl ⟨_, hspec.take (hi.slots.tail.getElem?_of_mem hmem) (hi.inserted hp),
        .popped hlen hagree⟩
    · obtain rfl : buf = [] := hbuf
      exact .inr ⟨hpush, hnone, .refused hneg⟩
  | popWCb cb =>
    have hpush := hno' (by simp)
    obtain ⟨rfl, hcb⟩ := takes_popWCb htakes
    rcases hcb with ⟨hneg, hnone⟩ | ⟨d, reads, hcas, hreads, hmem⟩
    · refine .inr ⟨hpush, fun d hd hid => ?_, .refused hneg⟩
      obtain ⟨o, x, hop, hx⟩ := exists_op_of_mem_claims hd
      have hops := hnone _ (mem_opsOf (hid ▸ hop))
      rw [hops] at hx
      cases hx
    · obtain ⟨u, a', hop⟩ := exists_of_mem_opsOf hcas
      have hd : ⟨u, id, a', d⟩ ∈ popClaims tr₁ :=
        List.mem_filterMap.2 ⟨_, hop, rfl⟩
      -- The position was pushed before it was taken.
      have hd' := hi.slots.tail.getElem?_of_mem hd
      obtain ⟨e, he⟩ := hi.bounded.exists_inserted hd'
      refine .inl ⟨_, hspec.take hd' he, .answered ⟨reads, hreads, ?_⟩⟩
      intro x hx y hy
      obtain ⟨c₁, h₁, -⟩ := h.cut
      exact hi.reads hf h₁ (noOverflow_of_lt hlt₁) hd he x.1.isLt (hmem x hx) hy

/-- **The ring is linearizable** from any state like that of a new ring. -/
theorem Fresh.linearized (hf : Fresh r m₀) (h : Run (sys r Tid) (.start m₀) tr cf)
    (hlt : (pushClaims tr).length < 2 ^ 63) :
    Linearized r.cap [] Effect Returns tr ((queueOps r.objSize).lin [] tr).acts := by
  obtain ⟨R, -, hi⟩ := inv_run hf h (noOverflow_of_lt hlt)
  have hb : ∀ {tr₁ tr₂}, tr = tr₁ ++ tr₂ → (queueOps r.objSize).Bounded [] r.cap tr₁ := by
    rintro tr₁ tr₂ rfl
    obtain ⟨c₁, h₁, -⟩ := h.cut
    obtain ⟨R₁, -, hi₁⟩ := inv_run hf h₁
      (noOverflow_of_lt (Nat.lt_of_le_of_lt (length_claims_le tr₂) hlt))
    exact hi₁.bounded
  refine h.linearized (queueOps r.objSize) hb hi.known.push.nodup hi.known.pop.nodup ?_ ?_ ?_ ?_
  · intro c k k' e e' h₁ h₂
    cases h₁
    cases h₂
  · intro c hc k
    obtain ⟨args, hargs⟩ := push_of_claim h hc
    rw [hargs]
    exact .push
  · intro c hc k e
    have hno := pop_of_claim h hc
    cases hcall : c.call with
    | push args => exact absurd hcall (hno args)
    | pop size => exact .pop
    | popWCb cb => exact .popWCb
  · intro tr₁ tr₂ t id c v htr hspec
    rw [htr] at h hlt
    exact hf.returns h hlt hspec

/-- **The Mpmc ring is linearizable.** -/
theorem mpmc_linearized (h : Run (sys r Tid) (.start (getBuf r .mpmcSlot m₀)) tr cf)
    (hlt : (pushClaims tr).length < 2 ^ 63) :
    Linearized r.cap [] Effect Returns tr ((queueOps r.objSize).lin [] tr).acts :=
  (fresh_getBuf m₀).linearized h hlt

/-- Two pushes that do not overlap, and a pop. -/
theorem mpmc_linearized_pushPop :
    Linearized tinyRing.cap [] Effect Returns
      (seqTrace exec (body tinyRing) pushPop 0 (getBuf tinyRing .mpmcSlot .zero))
      ((queueOps tinyRing.objSize).lin []
        (seqTrace exec (body tinyRing) pushPop 0 (getBuf tinyRing .mpmcSlot .zero))).acts :=
  mpmc_linearized (Run.seq pushPop (fun _ _ => trivial) 0 _) (by decide)

end Mpmc

end RingBuf
