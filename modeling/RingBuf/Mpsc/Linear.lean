import RingBuf.Callbacks
import RingBuf.Mpsc.Fifo

/-!
# The Mpsc ring is linearizable

Every run on a new ring, with fewer than `2 ^ 63` successful pushes and one consumer at a time, is
linearized (`mpsc_linearized`): a push puts its element into the queue at its compare-exchange, a
pop takes the oldest element out when it stores the next tail. The bytes were read before that
store; they are bytes of that element because no other pop was in progress.
-/

namespace RingBuf

open Conc Word LawfulWord

namespace Mpsc

variable {Tid : Type} {r : Ring SizeT}

/-- The bytes a push puts into its element. -/
def Call.elem {n : Nat} : Call n → Elem
  | .push args => .ofList args
  | _ => fun _ => none

/-- The effect a call may have. -/
inductive Effect {n : Nat} : Call n → Act Elem → Prop
  | push {args k} : Effect (.push args) (.enq k (.ofList args))
  | pop {others size k e} : Effect (.pop others size) (.deq k e)
  | popWCb {others cb k e} : Effect (.popWCb others cb) (.deq k e)

/-- What a call returns after its effect, or without one. -/
inductive Returns {n : Nat} : Call n → Ret → Option (Act Elem) → Prop
  | pushed {args} {k : Nat} : Returns (.push args) ⟨k, []⟩ (some (.enq k (.ofList args)))
  | popped {others size} {k : Nat} {bs e} : bs.length = size → Agree bs e →
      Returns (.pop others size) ⟨k, bs⟩ (some (.deq k e))
  | answered {others cb k v e} : RingBuf.Reads cb.onObj e v →
      Returns (.popWCb others cb) ⟨v, []⟩ (some (.deq k e))
  | refused {c rc} : rc < 0 → Returns c ⟨rc, []⟩ none

/-- Pushes take effect when they take a position from `head_`, pops when they store the next
`tail_`. -/
def queueOps (n : Nat) : QueueOps (Op SizeT) Op.Res (Call n) SizeT Elem where
  put := takeHead
  take := putTail
  elem := Call.elem
  apart o x := by
    cases o with
    | casHead e d => exact .inr rfl
    | _ => exact .inl rfl

/-! ## What a call has done when it returns -/

section Returned

variable {ops : List ((o : Op SizeT) × o.Res)} {v : Ret}

theorem buf_of_push {args : List Byte} (h : (body r (.push args)).Takes ops v) : v.buf = [] := by
  obtain ⟨rc, -, -, -, -, -, rfl⟩ := h.bind
  rfl

theorem takes_otherRings {others : Option SizeT} (h : (otherRings others).Takes ops ()) :
    ∀ x ∈ ops, putTail x.1 x.2 = none := by
  cases others with
  | none =>
    obtain ⟨rfl, -⟩ := h
    simp
  | some v =>
    obtain ⟨-, -, rfl, rfl, -⟩ := h
    simp [putTail]

/-- A pop with a callback was refused, or ends with the store of the next tail and returns what the
callback has answered on the bytes of its slot. -/
theorem takes_popWCb {others : Option SizeT} {cb : Callback r.objSize}
    (h : (body r (.popWCb others cb)).Takes ops v) :
    v.buf = [] ∧ ((v.rc < 0 ∧ ∀ x ∈ ops, putTail x.1 x.2 = none) ∨
      ∃ (d : SizeT) (reads : List ((_ : Fin r.objSize) × Byte))
        (ops' : List ((o : Op SizeT) × o.Res)),
        ops = ops' ++ [⟨.storeTail (d + 1), ()⟩] ∧ cb.onObj.Takes reads v.rc ∧
        ∀ x ∈ reads,
          (⟨.readByte (r.base (toNat d) + x.1), x.2⟩ : (o : Op SizeT) × o.Res) ∈ ops') := by
  obtain ⟨_, ops₀, ops, rfl, hothers, hrest⟩ := h.bind
  have hothers' := takes_otherRings hothers
  obtain ⟨rc, ops, ops', rfl, hpop, rfl, rfl⟩ := hrest.bind
  rw [List.append_nil]
  refine ⟨rfl, ?_⟩
  simp only [popWCbMpscRingBuf, Prog.op_bind, Prog.ret_bind] at hpop
  obtain ⟨d, ops, rfl, htest⟩ := hpop
  obtain ⟨empty, ops₁, ops, rfl, hempty, hslot⟩ := htest.bind
  have hempty' := takes_popEmpty hempty
  have hbefore : ∀ x ∈ ops₀ ++ (⟨.loadTail, d⟩ :: ops₁), putTail x.1 x.2 = none := by
    intro x hx
    rcases List.mem_append.1 hx with hx | hx
    · exact hothers' x hx
    · rcases List.mem_cons.1 hx with rfl | hx
      · rfl
      · exact hempty' x hx
  cases empty with
  | true =>
    obtain ⟨rfl, rfl⟩ := hslot
    exact .inl ⟨by decide, by simpa using hbefore⟩
  | false =>
    obtain ⟨st, ops, rfl, hst⟩ := hslot
    beta_reduce at hst
    split at hst
    case isTrue hwriting =>
      obtain ⟨rfl, rfl⟩ := hst
      refine .inl ⟨by decide, fun x hx => ?_⟩
      rw [← List.cons_append, ← List.append_assoc] at hx
      rcases List.mem_append.1 hx with hx | hx
      · exact hbefore x hx
      · obtain rfl := List.mem_singleton.1 hx
        rfl
    case isFalse hvalid =>
      -- The mask of the unknown state is zero, so that this state is never seen.
      rw [if_neg (by simp [slotUnknown])] at hst
      obtain ⟨rc', ops₂, ops₃, rfl, hcb, -, -, rfl, -, -, rfl, rfl, rfl⟩ := hst.bind
      obtain ⟨_, ops₂, rfl, hread⟩ := hcb
      obtain ⟨reads, htakes, hmem⟩ := takes_readObj hread
      refine .inr ⟨d, reads, ops₀ ++ ⟨.loadTail, d⟩ :: (ops₁ ++ ⟨.loadSlot (d &&& r.mask), st⟩ ::
        (⟨.callback (some (r.addr (d &&& r.mask))), ()⟩ :: ops₂ ++
          [⟨.storeSlot (d &&& r.mask) slotEmpty, ()⟩])), ?_, htakes, fun x hx => ?_⟩
      · simp
      · have hx := hmem x hx
        rw [r.addr_and_mask] at hx
        simp [hx]

end Returned

/-! ## Every run -/

variable [DecidableEq Tid] {tr tr₁ tr₂ : List (Ev Tid r.objSize)} {m₀ : Mem SizeT Tid}
  {cf : Config (Op SizeT) Op.Res Empty Tid (Call r.objSize) Ret (Mem SizeT Tid)}
  {c : Claim Tid (Call r.objSize) SizeT}

theorem push_of_claim (h : Run (sys r Tid) (.start m₀) tr cf) (hc : c ∈ pushClaims tr) :
    ∃ args, c.call = .push args := by
  obtain ⟨o, x, he, hx⟩ := exists_op_of_mem_claims hc
  obtain ⟨tr₁, tr₂, rfl⟩ := List.append_of_mem he
  obtain ⟨n, m, m', R, l, l', -, hk, ht, hm, -⟩ :=
    Inductive.before_op (follows r Tid) known_inductive h
  have hof := hk.role _ _ ht
  cases hm with
  | claimHead _ => exact ⟨_, hof.1⟩
  | _ => cases hx

theorem pops_of_claim (h : Run (sys r Tid) (.start m₀) tr cf) (hc : c ∈ popClaims tr) :
    c.call.pops = true := by
  obtain ⟨o, x, he, hx⟩ := exists_op_of_mem_claims hc
  obtain ⟨tr₁, tr₂, rfl⟩ := List.append_of_mem he
  obtain ⟨n, m, m', R, l, l', -, hk, ht, hm, -⟩ :=
    Inductive.before_op (follows r Tid) known_inductive h
  have hof := hk.role _ _ ht
  cases hm with
  | advance => exact hof.2.1
  | _ => cases hx

/-- There is one pop at a time. -/
theorem oneAtATime (r : Ring SizeT) (m₀ : Mem SizeT Tid) :
    (sys r Tid).OneAtATime m₀ fun c => c.pops = true := by
  intro tr c h t u id j a b p q ht hu ha hb
  obtain ⟨R, hF, -, hk⟩ := known_inductive.run (follows r Tid) h
  obtain ⟨l, hR, -⟩ := (ht ▸ hF t : Follow (proto r) (.run id a p) (R t)).run
  obtain ⟨l', hR', -⟩ := (hu ▸ hF u : Follow (proto r) (.run j b q) (R u)).run
  exact hk.one t u _ _ hR hR' ha hb

variable {m : Mem SizeT Tid} {R : MRoles Tid r.objSize} {t : Tid} {id : Nat} {a : Call r.objSize}
  {v : Ret}

omit [DecidableEq Tid] in
theorem Inv.bounded (h : Inv r tr m R) : (queueOps r.objSize).Bounded [] r.cap tr :=
  QueueOps.bounded_of_numbered h.slots.head h.slots.tail ⟨h.slots.inv.tail_le, h.slots.inv.head_le⟩

omit [DecidableEq Tid] in
theorem Inv.inserted {k : Nat} {args : List Byte} (h : Inv r tr m R) (hp : Pushed r tr k args) :
    ((queueOps r.objSize).inserted [] tr)[k]? = some (.ofList args) := by
  obtain ⟨t, id, p, hmem, rfl, -⟩ := hp
  have hget := h.slots.head.getElem?_of_mem hmem
  exact QueueOps.inserted_of_claim (V := queueOps r.objSize) hget

/-- What a pop has read of its slot, before it stored the next tail, are bytes of the element of the
position it gave back. -/
theorem Inv.reads {d : SizeT} {ops : List ((o : Op SizeT) × o.Res)} (hf : Fresh r m₀)
    (h : Run (sys r Tid) (.start m₀) tr cf) (hb : Bounded tr) (hi : Inv r tr m R)
    (hops : opsOf id tr = ops ++ [⟨.storeTail (d + 1), ()⟩]) {j : Nat} {b : Byte}
    (hj : j < r.objSize) (hop : ⟨.readByte (r.base (toNat d) + j), b⟩ ∈ ops) :
    ∃ args, Pushed r tr (toNat d) args ∧ ∀ y, args[j]? = some y → b = y := by
  obtain ⟨ops₁, ops₂, rfl⟩ := List.append_of_mem hop
  rw [List.append_assoc, List.cons_append] at hops
  obtain ⟨tr₁, t, a, tr', rfl, -, hops'⟩ := opsOf_split hops
  obtain ⟨tr₂, t', a', tr₃, rfl, -, -⟩ := opsOf_split hops'
  have hcalled := h.call_unique (h.op_called (List.mem_append_right _ (List.mem_cons_self ..)))
    (h.op_called (List.mem_append_right _ (List.mem_cons_of_mem _
      (List.mem_append_right _ (List.mem_cons_self ..)))))
  obtain ⟨rfl, rfl⟩ := hcalled
  obtain ⟨m₁, R₁, l, l', hi₁, ht, hm, hx⟩ := users_before_op hf h hb
  obtain ⟨i, j', args, -, -, hj', haddr, hp, hread⟩ := hi₁.read ht hm hx
  rw [← List.cons_append, ← List.append_assoc] at h hi
  -- No other pop has given a position back in between.
  have hlen := h.claims_between (oneAtATime r m₀) hi.known.pop.nodup
    (fun d hd => pops_of_claim h hd) (rfl : putTail _ _ = none)
    (rfl : putTail (.storeTail (d + 1)) _ = some (d + 1 - 1))
  have hpos := hi.slots.tail.pos_eq (rfl : putTail (.storeTail (d + 1)) () = some (d + 1 - 1))
  rw [show d + 1 - 1 = d from BitVec.add_sub_cancel d 1] at hpos
  rw [hpos, hlen] at haddr ⊢
  obtain ⟨-, rfl⟩ := Ring.base_add_inj hj hj' haddr
  exact ⟨args, hp.append _, hread⟩

theorem Fresh.returns (hf : Fresh r m₀)
    (h : Run (sys r Tid) (.start m₀) (tr₁ ++ .ret t id a v :: tr₂) cf)
    (hb : Bounded (tr₁ ++ .ret t id a v :: tr₂))
    (hspec : (queueOps r.objSize).LinSpec [] r.cap tr₁) :
    (∃ e, (id, e) ∈ ((queueOps r.objSize).lin [] tr₁).acts ∧ Returns a v (some e)) ∨
      ((∀ d ∈ pushClaims tr₁, d.id ≠ id) ∧ (∀ d ∈ popClaims tr₁, d.id ≠ id) ∧
        Returns a v none) := by
  have hret : .ret t id a v ∈ tr₁ ++ .ret t id a v :: tr₂ :=
    List.mem_append_right _ (List.mem_cons_self ..)
  have htakes := h.takes
  have hb₁ : Bounded tr₁ := hb.of_append
  obtain ⟨m, R, l, hi, ht, hfin⟩ := inv_before_ret hf h hb
  -- A push gives nothing back, and a pop takes nothing from `head_`.
  have hno : a.pops = false → ∀ d ∈ popClaims tr₁, d.id ≠ id := by
    rintro ha d hd rfl
    have hd := mem_claims_append hd (.ret t d.id a v :: tr₂)
    have hpops := pops_of_claim h hd
    rw [(h.claim_of_ret hret hd).2, ha] at hpops
    cases hpops
  have hno' : a.pops = true → ∀ d ∈ pushClaims tr₁, d.id ≠ id := by
    rintro ha d hd rfl
    have hd := mem_claims_append hd (.ret t d.id a v :: tr₂)
    obtain ⟨args, hargs⟩ := push_of_claim h hd
    rw [← (h.claim_of_ret hret hd).2, hargs] at ha
    cases ha
  obtain ⟨rc, buf⟩ := v
  cases a with
  | push args =>
    obtain rfl : buf = [] := buf_of_push htakes
    rcases hi.push_ret hb₁ ht hfin with ⟨p, hmem, hrc⟩ | ⟨hneg, hnone⟩
    · obtain rfl : rc = _ := hrc
      have hput := hspec.put (hi.slots.head.getElem?_of_mem hmem)
      rw [List.length_nil, Nat.zero_add] at hput
      exact .inl ⟨_, hput, .pushed⟩
    · exact .inr ⟨hnone, hno rfl, .refused hneg⟩
  | pop others size =>
    have hpush := hno' rfl
    rcases hi.pop_ret hb₁ ht hfin with ⟨d, args, hmem, hrc, hlen, hp, hagree⟩ | ⟨hneg, hbuf, hnone⟩
    · obtain rfl : rc = _ := hrc
      exact .inl ⟨_, hspec.take (hi.slots.tail.getElem?_of_mem hmem) (hi.inserted hp),
        .popped hlen hagree⟩
    · obtain rfl : buf = [] := hbuf
      exact .inr ⟨hpush, hnone, .refused hneg⟩
  | popWCb others cb =>
    have hpush := hno' rfl
    obtain ⟨rfl, hcb⟩ := takes_popWCb htakes
    rcases hcb with ⟨hneg, hnone⟩ | ⟨d, reads, ops, hops, hreads, hmem⟩
    · refine .inr ⟨hpush, fun d hd hid => ?_, .refused hneg⟩
      obtain ⟨o, x, hop, hx⟩ := exists_op_of_mem_claims hd
      have hops := hnone _ (mem_opsOf (hid ▸ hop))
      rw [hops] at hx
      cases hx
    · have hstore : ⟨.storeTail (d + 1), ()⟩ ∈ opsOf id tr₁ := by simp [hops]
      obtain ⟨u, a', hop⟩ := exists_of_mem_opsOf hstore
      have hd : ⟨u, id, a', d⟩ ∈ popClaims tr₁ := by
        refine List.mem_filterMap.2 ⟨_, hop, ?_⟩
        show some (Claim.mk u id a' (d + 1 - 1)) = _
        rw [show d + 1 - 1 = d from BitVec.add_sub_cancel d 1]
      -- The position was pushed before it was given back.
      have hd' := hi.slots.tail.getElem?_of_mem hd
      obtain ⟨e, he⟩ := hi.bounded.exists_inserted hd'
      refine .inl ⟨_, hspec.take hd' he, .answered ⟨reads, hreads, ?_⟩⟩
      intro x hx y hy
      obtain ⟨c₁, h₁, -⟩ := h.cut
      obtain ⟨args, hp, hread⟩ := hi.reads hf h₁ hb₁ hops x.1.isLt (hmem x hx)
      have he' := hi.inserted hp
      rw [he] at he'
      rw [Option.some.inj he'] at hy
      exact hread y hy

/-- **The ring is linearizable** from any state like that of a new ring. -/
theorem Fresh.linearized (hf : Fresh r m₀) (h : Run (sys r Tid) (.start m₀) tr cf)
    (hlt : (pushClaims tr).length < 2 ^ 63) :
    Linearized r.cap [] Effect Returns tr ((queueOps r.objSize).lin [] tr).acts := by
  have hB : Bounded tr := hlt
  obtain ⟨R, -, hi⟩ := inv_run hf h hB
  have hb : ∀ {tr₁ tr₂}, tr = tr₁ ++ tr₂ → (queueOps r.objSize).Bounded [] r.cap tr₁ := by
    rintro tr₁ tr₂ rfl
    obtain ⟨c₁, h₁, -⟩ := h.cut
    obtain ⟨R₁, -, hi₁⟩ := inv_run hf h₁ hB.of_append
    exact hi₁.bounded
  refine h.linearized (queueOps r.objSize) hb hi.known.push.nodup hi.known.pop.nodup ?_ ?_ ?_ ?_
  · intro c k k' e e' h₁ h₂
    cases h₁
    cases h₂
  · intro c hc k
    obtain ⟨args, hargs⟩ := push_of_claim h hc
    rw [hargs]
    exact .push
  · intro c hc k e
    have hpops := pops_of_claim h hc
    cases hcall : c.call with
    | push args =>
      rw [hcall] at hpops
      cases hpops
    | pop others size => exact .pop
    | popWCb others cb => exact .popWCb
  · intro tr₁ tr₂ t id c v htr hspec
    rw [htr] at h hB
    exact hf.returns h hB hspec

/-- **The Mpsc ring is linearizable.** -/
theorem mpsc_linearized (h : Run (sys r Tid) (.start (getBuf r .mpscSlot m₀)) tr cf)
    (hlt : (pushClaims tr).length < 2 ^ 63) :
    Linearized r.cap [] Effect Returns tr ((queueOps r.objSize).lin [] tr).acts :=
  (fresh_getBuf m₀).linearized h hlt

theorem mpsc_linearized_pushPop :
    Linearized tinyRing.cap [] Effect Returns
      (seqTrace exec (body tinyRing) pushPop 0 (getBuf tinyRing .mpscSlot .zero))
      ((queueOps tinyRing.objSize).lin []
        (seqTrace exec (body tinyRing) pushPop 0 (getBuf tinyRing .mpscSlot .zero))).acts :=
  mpsc_linearized (Run.seq pushPop (fun _ _ _ _ _ h => by cases h) 0 _) (by decide)

end Mpsc

end RingBuf
