import RingBuf.Callbacks
import RingBuf.Spsc.Fifo

/-!
# The Spsc ring is linearizable

Every run of one producer and one consumer, of any length, is linearized (`spsc_linearized`): an
element enters the queue when the producer stores the next head and leaves it when the consumer
stores the next tail, whether it is copied or used in place. The same holds from any state with
elements waiting whose caches lie in the window (`Start.linearized`). The number of the element is
returned as an `ssize_t`, which is the number itself for the first `2 ^ 63` of them.
-/

namespace RingBuf

open Conc Word LawfulWord

namespace Spsc

variable {Tid : Type} {r : Ring SizeT}

/-- The effect a use may have. -/
inductive Effect {n : Nat} : Call n → Act Elem → Prop
  | put {c k} : c.pushes = true → Effect c (.enq k c.elem)
  | take {c k e} : c.pushes = false → Effect c (.deq k e)

/-- What a use without effect may come to: an error code or `NULL`, or a section without `End_`. -/
inductive Refused {n : Nat} : Call n → Out → Prop
  | pushTooLarge {args} : Refused (.push args) (.code ringbufPushSizeTooLarge [])
  | full {args} : Refused (.push args) (.code ringbufFull [])
  | noRoom {ws commit} : Refused (.place ws commit) .null
  | unpublished {ws} : Refused (.place ws false) (.done false)
  | popTooLarge {size} : Refused (.pop size) (.code ringbufPopSizeTooLarge [])
  | empty {size} : Refused (.pop size) (.code ringbufEmpty [])
  | noElem {read} : Refused (.take read) .null
  | kept {read} : Refused (.take read) (.done false)

/-- What comes of a use after its effect, or without one, when the oldest element at first had
position `p`. -/
inductive Returns {n : Nat} (p : Nat) : Call n → Out → Option (Act Elem) → Prop
  | pushed {args k} :
      Returns p (.push args) (.code (toSsize (word (p + k))) []) (some (.enq k (.ofList args)))
  | placed {ws k} : Returns p (.place ws true) (.done true) (some (.enq k (written ws)))
  | popped {size k bs e} : bs.length = size → Agree bs e →
      Returns p (.pop size) (.code (toSsize (word (p + k))) bs) (some (.deq k e))
  | taken {read k e} : Reads read e true → Returns p (.take read) (.done true) (some (.deq k e))
  | refused {c v} : Refused c v → Returns p c v none

/-- Uses by the producer take effect when they store the next `head_`, uses by the consumer when
they store the next `tail_`. -/
def queueOps (n : Nat) : QueueOps (Op SizeT) Op.Res (Call n) SizeT Elem where
  put := putHead
  take := putTail
  elem := Call.elem
  apart o x := by
    cases o with
    | storeHead v => exact .inr rfl
    | _ => exact .inl rfl

/-- An in-place pop that was ended has read the slot before it stored the next tail. -/
theorem takes_take {read : Prog (Fin r.objSize) (fun _ => Byte) Empty Bool}
    {ops : List ((o : Op SizeT) × o.Res)} (h : (body r (.take read)).Takes ops (.done true)) :
    ∃ (a : Nat) (d : SizeT) (reads : List ((_ : Fin r.objSize) × Byte))
      (ops' : List ((o : Op SizeT) × o.Res)), (∃ d', a = r.base d') ∧
      ops = ops' ++ [⟨.storeTail (d + 1), ()⟩] ∧ read.Takes reads true ∧
      ∀ x ∈ reads, (⟨.readByte (a + x.1), x.2⟩ : (o : Op SizeT) × o.Res) ∈ ops' := by
  obtain ⟨q, ops₁, ops₂, rfl, hbegin, hrest⟩ := h.bind
  cases q with
  | none =>
    obtain ⟨-, hv⟩ := hrest
    cases hv
  | some a =>
    have ha : ∃ d', a = r.base d' := by
      simp only [beginPopSpscRingBuf, Prog.op_bind, Prog.ret_bind] at hbegin
      obtain ⟨d, ops, rfl, htest⟩ := hbegin
      obtain ⟨empty, ops₁, ops, rfl, -, hp⟩ := htest.bind
      cases empty with
      | true =>
        obtain ⟨-, hp⟩ := hp
        cases hp
      | false =>
        obtain ⟨-, hp⟩ := hp
        obtain rfl := Option.some.inj hp
        exact ⟨toNat d, r.addr_and_mask d⟩
    obtain ⟨commit, ops₃, ops₄, rfl, hread, hend⟩ := Prog.Takes.bind hrest
    cases commit with
    | false =>
      obtain ⟨-, hv⟩ := hend
      cases hv
    | true =>
      simp only [endPopSpscRingBuf, Prog.op_bind, Prog.ret_bind, if_true] at hend
      obtain ⟨d, -, rfl, -, -, rfl, rfl, -⟩ := hend
      obtain ⟨reads, htakes, hmem⟩ := takes_readObj hread
      refine ⟨a, d, reads, ops₁ ++ (ops₃ ++ [⟨.loadTail, d⟩]), ha, by simp, htakes, fun x hx => ?_⟩
      simp [hmem x hx]

/-! ## Every run -/

variable [DecidableEq Tid] {q₀ : List Elem} {p : Nat} {tr tr₁ tr₂ : List (Ev Tid r.objSize)}
  {m m₁ m₀ : Mem SizeT Tid} {producer consumer t : Tid} {id : Nat} {a : Call r.objSize}
  {cf : Config (Op SizeT) Op.Res Empty Tid (Call r.objSize) Out (Mem SizeT Tid)}
  {c : Claim Tid (Call r.objSize) SizeT}

theorem pushes_of_claim (h : Run (sys r producer consumer) (.start m₀) tr cf)
    (hc : c ∈ pushClaims tr) : c.call.pushes = true := by
  obtain ⟨o, x, he, hx⟩ := exists_op_of_mem_claims hc
  obtain ⟨tr₁, tr₂, rfl⟩ := List.append_of_mem he
  obtain ⟨n, m, m', R, l, l', -, hk, ht, hm, -⟩ :=
    Inductive.before_op (follows r producer consumer) known_inductive h
  have hof := hk.role _ _ ht
  cases hm with
  | publish | endPush => exact hof.2.1
  | _ => cases hx

theorem pops_of_claim (h : Run (sys r producer consumer) (.start m₀) tr cf)
    (hc : c ∈ popClaims tr) : c.call.pushes = false := by
  obtain ⟨o, x, he, hx⟩ := exists_op_of_mem_claims hc
  obtain ⟨tr₁, tr₂, rfl⟩ := List.append_of_mem he
  obtain ⟨n, m, m', R, l, l', -, hk, ht, hm, -⟩ :=
    Inductive.before_op (follows r producer consumer) known_inductive h
  have hof := hk.role _ _ ht
  cases hm with
  | giveBack _ | endPop => exact hof.2
  | _ => cases hx

theorem oneAtATime (r : Ring SizeT) (producer consumer : Tid) (m₀ : Mem SizeT Tid) :
    (sys r producer consumer).OneAtATime m₀ fun c => c.pushes = false := by
  intro tr c h t u id j a b x y ht hu ha hb
  obtain ⟨R, hF, -, hk⟩ := known_inductive.run (follows r producer consumer) h
  obtain ⟨l, hR, -⟩ := (ht ▸ hF t : Follow (proto r) (.run id a x) (R t)).run
  obtain ⟨l', hR', -⟩ := (hu ▸ hF u : Follow (proto r) (.run j b y) (R u)).run
  have ht' := hk.caller t _ hR
  have hu' := hk.caller u _ hR'
  rw [ha] at ht'
  rw [hb] at hu'
  exact ht'.trans hu'.symm

/-- What the consumer has read in place, before it stored the next tail, are bytes of the element
that left the queue there. -/
theorem Fifo.reads {d : SizeT} {ops : List ((o : Op SizeT) × o.Res)} {b₀ : Nat}
    (h : Run (sys r producer consumer) (.start m₀) tr cf) (hF : Fifo r p q₀ tr m)
    (hops : opsOf id tr = ops ++ [⟨.storeTail (d + 1), ()⟩]) {k : Nat} {x : SizeT}
    (hk : (popClaims tr)[k]? = some ⟨t, id, a, x⟩) {j : Nat} {b : Byte} (hj : j < r.objSize)
    (hop : ⟨.readByte (r.base b₀ + j), b⟩ ∈ ops) :
    ∃ e, (queue q₀ tr)[k]? = some e ∧ ∀ y, e j = some y → b = y := by
  obtain ⟨ops₁, ops₂, rfl⟩ := List.append_of_mem hop
  rw [List.append_assoc, List.cons_append] at hops
  obtain ⟨tr₁, u, a₁, tr', rfl, -, hops'⟩ := opsOf_split hops
  obtain ⟨tr₂, u', a₂, tr₃, rfl, -, -⟩ := opsOf_split hops'
  have hcalled := h.call_unique (h.op_called (List.mem_append_right _ (List.mem_cons_self ..)))
    (h.op_called (List.mem_append_right _ (List.mem_cons_of_mem _
      (List.mem_append_right _ (List.mem_cons_self ..)))))
  obtain ⟨rfl, rfl⟩ := hcalled
  obtain ⟨-, i, e, hi, haddr, hget, hread⟩ := hF.read rfl
  rw [← List.cons_append, ← List.append_assoc] at h hF hk ⊢
  -- Nothing else has left the queue in between.
  have hlen := h.claims_between (oneAtATime r producer consumer m₀) hF.pop_once
    (fun d hd => pops_of_claim h hd) (rfl : putTail _ _ = none)
    (rfl : putTail (.storeTail (d + 1)) _ = some (d + 1 - 1))
  have hself : (popClaims ((tr₁ ++ .op u id a₁ (.readByte (r.base b₀ + j)) b :: tr₂) ++
      .op u id a₁ (.storeTail (d + 1)) () :: tr₃))[(popClaims (tr₁ ++
        .op u id a₁ (.readByte (r.base b₀ + j)) b :: tr₂)).length]? =
      some ⟨u, id, a₁, d + 1 - 1⟩ :=
    getElem?_claims rfl
  rw [show (popClaims (tr₁ ++ .op u id a₁ (.readByte (r.base b₀ + j)) b :: tr₂)).length =
    pops tr₁ from hlen] at hself
  obtain ⟨-, rfl⟩ := Ring.base_add_inj hj hi haddr
  -- The use has left the queue once.
  have hkk : k = pops tr₁ := by
    refine (List.getElem?_inj ?_ hF.pop_once).1 ?_
    · rw [List.length_map]
      exact (List.getElem?_eq_some_iff.1 hk).1
    · rw [List.getElem?_map, List.getElem?_map, hk, hself]
      rfl
  subst hkk
  rw [List.append_assoc]
  exact ⟨e, QueueOps.getElem?_inserted (V := queueOps r.objSize) hget _, hread⟩

omit [DecidableEq Tid] in
theorem Fifo.bounded (h : Fifo r p q₀ tr m) : (queueOps r.objSize).Bounded q₀ r.cap tr := h.bounds

theorem Fifo.returns {v : Out}
    (h : Run (sys r producer consumer) (.start m₀) (tr₁ ++ .ret t id a v :: tr₂) cf)
    (hF : Fifo r p q₀ (tr₁ ++ .ret t id a v :: tr₂) m) (hF₁ : Fifo r p q₀ tr₁ m₁)
    (hspec : (queueOps r.objSize).LinSpec q₀ r.cap tr₁) :
    (∃ e, (id, e) ∈ ((queueOps r.objSize).lin q₀ tr₁).acts ∧ Returns p a v (some e)) ∨
      ((∀ d ∈ pushClaims tr₁, d.id ≠ id) ∧ (∀ d ∈ popClaims tr₁, d.id ≠ id) ∧
        Returns p a v none) := by
  have hret : .ret t id a v ∈ tr₁ ++ .ret t id a v :: tr₂ :=
    List.mem_append_right _ (List.mem_cons_self ..)
  -- The producer takes nothing out, and the consumer puts nothing in.
  have hno : a.pushes = true → ∀ d ∈ popClaims tr₁, d.id ≠ id := by
    rintro ha d hd rfl
    have hd := mem_claims_append hd (.ret t d.id a v :: tr₂)
    have hpops := pops_of_claim h hd
    rw [(h.claim_of_ret hret hd).2, ha] at hpops
    cases hpops
  have hno' : a.pushes = false → ∀ d ∈ pushClaims tr₁, d.id ≠ id := by
    rintro ha d hd rfl
    have hd := mem_claims_append hd (.ret t d.id a v :: tr₂)
    have hpushes := pushes_of_claim h hd
    rw [(h.claim_of_ret hret hd).2, ha] at hpushes
    cases hpushes
  have hput : ∀ {x}, ⟨t, id, a, x⟩ ∈ pushClaims tr₁ → ∃ k, x = word (p + k) ∧
      (id, .enq k a.elem) ∈ ((queueOps r.objSize).lin q₀ tr₁).acts := by
    intro x hx
    obtain ⟨k, hk⟩ := List.mem_iff_getElem?.1 hx
    refine ⟨q₀.length + k, ?_, hspec.put hk⟩
    rw [← Nat.add_assoc]
    exact hF₁.pushPos k _ hk
  cases hc : a.pushes with
  | true =>
    have hpop := hno hc
    cases hF.push_ret rfl hc with
    | tooLarge _ hnone => exact .inr ⟨hnone, hpop, .refused .pushTooLarge⟩
    | full _ hnone => exact .inr ⟨hnone, hpop, .refused .full⟩
    | null _ hnone => exact .inr ⟨hnone, hpop, .refused .noRoom⟩
    | pushed hmem =>
      obtain ⟨k, rfl, hk⟩ := hput hmem
      rw [Call.elem_push] at hk
      exact .inl ⟨_, hk, .pushed⟩
    | placed hmem =>
      obtain ⟨k, rfl, hk⟩ := hput hmem
      rw [Call.elem_place] at hk
      exact .inl ⟨_, hk, .placed⟩
    | left hnone => exact .inr ⟨hnone, hpop, .refused .unpublished⟩
  | false =>
    have hpush := hno' hc
    have htakes := h.takes
    cases hF.pop_ret rfl hc with
    | tooLarge _ hnone => exact .inr ⟨hpush, hnone, .refused .popTooLarge⟩
    | empty _ hnone => exact .inr ⟨hpush, hnone, .refused .empty⟩
    | null _ hnone => exact .inr ⟨hpush, hnone, .refused .noElem⟩
    | popped hk he hlen hagree =>
      obtain rfl := hF₁.popPos _ _ hk
      exact .inl ⟨_, hspec.take hk he, .popped hlen hagree⟩
    | @taken read d hmem =>
      obtain ⟨k, hk⟩ := List.mem_iff_getElem?.1 hmem
      obtain ⟨e, he⟩ := hF₁.bounded.exists_inserted hk
      obtain ⟨_, d', reads, ops, ⟨d₀, rfl⟩, hops, hreads, hmemr⟩ := takes_take htakes
      refine .inl ⟨_, hspec.take hk he, .taken ⟨reads, hreads, fun x hx y hy => ?_⟩⟩
      obtain ⟨c₁, h₁, -⟩ := h.cut
      obtain ⟨e', he', hread⟩ := hF₁.reads h₁ hops hk x.1.isLt (hmemr x hx)
      obtain rfl := Option.some.inj (he.symm.trans he')
      exact hread y hy
    | left _ hnone => exact .inr ⟨hpush, hnone, .refused .kept⟩

/-- **The ring is linearizable** from any state whose caches lie in the window. -/
theorem Start.linearized (hs : Start r producer consumer p q₀ m₀)
    (h : Run (sys r producer consumer) (.start m₀) tr cf) :
    Linearized r.cap q₀ Effect (Returns p) tr ((queueOps r.objSize).lin q₀ tr).acts := by
  have hF := hs.fifo h
  have hF₁ : ∀ {tr₁ tr₂}, tr = tr₁ ++ tr₂ → ∃ m, Fifo r p q₀ tr₁ m := by
    rintro tr₁ tr₂ rfl
    obtain ⟨c₁, h₁, -⟩ := h.cut
    exact ⟨_, hs.fifo h₁⟩
  have hb : ∀ {tr₁ tr₂}, tr = tr₁ ++ tr₂ → (queueOps r.objSize).Bounded q₀ r.cap tr₁ := by
    intro tr₁ tr₂ htr
    obtain ⟨m, hm⟩ := hF₁ htr
    exact hm.bounded
  refine h.linearized (queueOps r.objSize) hb hF.push_once hF.pop_once ?_ ?_ ?_ ?_
  · intro c k k' e e' h₁ h₂
    cases h₁ with
    | put hc =>
      cases h₂ with
      | take hc' => rw [hc] at hc'; cases hc'
  · exact fun c hc k => .put (pushes_of_claim h hc)
  · exact fun c hc k e => .take (pops_of_claim h hc)
  · intro tr₁ tr₂ t id c v htr hspec
    obtain ⟨m₁, hm₁⟩ := hF₁ htr
    rw [htr] at h hF
    exact hF.returns h hm₁ hspec

/-- **The Spsc ring is linearizable**, for runs of any length. -/
theorem spsc_linearized (hproducer : m₀.localTail producer = 0)
    (hconsumer : m₀.localHead consumer = 0)
    (h : Run (sys r producer consumer) (.start (getBuf r .noSlot m₀)) tr cf) :
    Linearized r.cap [] Effect (Returns 0) tr ((queueOps r.objSize).lin [] tr).acts :=
  (start_getBuf hproducer hconsumer).linearized h

theorem spsc_linearized_pushPop :
    Linearized tinyRing.cap [] Effect (Returns 0)
      (seqTrace exec (body tinyRing) pushPop 0 (getBuf tinyRing .noSlot .zero))
      ((queueOps tinyRing.objSize).lin []
        (seqTrace exec (body tinyRing) pushPop 0 (getBuf tinyRing .noSlot .zero))).acts :=
  spsc_linearized (rfl : (Mem.zero : Mem SizeT Bool).localTail true = 0)
    (rfl : (Mem.zero : Mem SizeT Bool).localHead false = 0) (Run.seq pushPop (by decide) 0 _)

end Spsc

end RingBuf
