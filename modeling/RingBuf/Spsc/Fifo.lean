import RingBuf.Spsc.Invariant

/-!
# The Spsc ring is a bounded FIFO

Every run of one producer and one consumer on a new ring is the history of a bounded queue
(`spsc_fifo`): whichever way a side enters the ring, however stale its cache is, and however often
the counters have wrapped. The same holds from any state in which some elements wait and both
caches lie in the window (`Start.fifo`).
-/

namespace RingBuf

open Conc Word LawfulWord

namespace Spsc

variable {Tid : Type}

/-! ## What comes of a use -/

/-- What may come of a use `id` by the producer `t`, when the history is `tr`. -/
inductive PushOut (r : Ring SizeT) (q₀ : List Elem) (tr : List (Ev Tid r.objSize)) (t : Tid)
    (id : Nat) : Call r.objSize → Out → Prop
  | tooLarge {args} : args.length > r.objSize → (∀ c ∈ pushClaims tr, c.id ≠ id) →
      PushOut r q₀ tr t id (.push args) (.code ringbufPushSizeTooLarge [])
  | full {args} : SawFull q₀ r.cap tr id → (∀ c ∈ pushClaims tr, c.id ≠ id) →
      PushOut r q₀ tr t id (.push args) (.code ringbufFull [])
  | null {ws commit} : SawFull q₀ r.cap tr id → (∀ c ∈ pushClaims tr, c.id ≠ id) →
      PushOut r q₀ tr t id (.place ws commit) .null
  | pushed {args h} : ⟨t, id, .push args, h⟩ ∈ pushClaims tr →
      PushOut r q₀ tr t id (.push args) (.code (toSsize h) [])
  | placed {ws h} : ⟨t, id, .place ws true, h⟩ ∈ pushClaims tr →
      PushOut r q₀ tr t id (.place ws true) (.done true)
  | left {ws} : (∀ c ∈ pushClaims tr, c.id ≠ id) →
      PushOut r q₀ tr t id (.place ws false) (.done false)

/-- What may come of a use `id` by the consumer `t`, when the history is `tr`. -/
inductive PopOut (r : Ring SizeT) (q₀ : List Elem) (tr : List (Ev Tid r.objSize)) (t : Tid)
    (id : Nat) : Call r.objSize → Out → Prop
  | tooLarge {size} : size > r.objSize → (∀ c ∈ popClaims tr, c.id ≠ id) →
      PopOut r q₀ tr t id (.pop size) (.code ringbufPopSizeTooLarge [])
  | empty {size} : SawEmpty q₀ tr id → (∀ c ∈ popClaims tr, c.id ≠ id) →
      PopOut r q₀ tr t id (.pop size) (.code ringbufEmpty [])
  | null {read} : SawEmpty q₀ tr id → (∀ c ∈ popClaims tr, c.id ≠ id) →
      PopOut r q₀ tr t id (.take read) .null
  /-- The pop that gives element `k` back returns its bytes. -/
  | popped {size k : Nat} {d : SizeT} {bs e} :
      (popClaims tr)[k]? = some (Claim.mk t id (Call.pop size) d) →
      (queue q₀ tr)[k]? = some e → bs.length = size → Agree bs e →
      PopOut r q₀ tr t id (.pop size) (.code (toSsize d) bs)
  | taken {read d} : ⟨t, id, .take read, d⟩ ∈ popClaims tr →
      PopOut r q₀ tr t id (.take read) (.done true)
  | left {read} : pops tr < (queue q₀ tr).length → (∀ c ∈ popClaims tr, c.id ≠ id) →
      PopOut r q₀ tr t id (.take read) (.done false)

/-- The head that an operation of a pop looks at. -/
def sawHead : (o : Op SizeT) → o.Res → Option SizeT
  | .getLocalHead, v | .loadHead, v => some v
  | _, _ => none

/-- The consumer has found element `k` waiting, by a head other than the tail, and the tail has
not advanced since. -/
def Obtained {n : Nat} (p : Nat) (tr : List (Ev Tid n)) (k : Nat) : Prop :=
  ∃ tr₁ t id c o x tr₂ h, tr = tr₁ ++ .op t id c o x :: tr₂ ∧ c.pushes = false ∧
    sawHead o x = some h ∧ h ≠ word (p + k) ∧ pops tr₁ = k ∧ pops tr = k

/-- `tr` is the history of a bounded FIFO of `r.cap` elements in which the elements `q₀` waited at
first, the oldest at position `p`, and it ends in `m`. -/
structure Fifo (r : Ring SizeT) (p : Nat) (q₀ : List Elem) (tr : List (Ev Tid r.objSize))
    (m : Mem SizeT Tid) : Prop where
  /-- The counters are the words of the numbers of elements produced and consumed. -/
  counters : m.head = word (p + (queue q₀ tr).length) ∧ m.tail = word (p + pops tr)
  bounds : pops tr ≤ (queue q₀ tr).length ∧ (queue q₀ tr).length ≤ pops tr + r.cap
  pushPos : InOrder (fun k => word (p + q₀.length + k)) (pushClaims tr)
  popPos : InOrder (fun k => word (p + k)) (popClaims tr)
  /-- No use produces or consumes two elements. -/
  push_once : ((pushClaims tr).map Claim.id).Nodup
  pop_once : ((popClaims tr).map Claim.id).Nodup
  push_ret : ∀ {tr₁ tr₂ t id c v}, tr = tr₁ ++ .ret t id c v :: tr₂ → c.pushes = true →
    PushOut r q₀ tr₁ t id c v
  pop_ret : ∀ {tr₁ tr₂ t id c v}, tr = tr₁ ++ .ret t id c v :: tr₂ → c.pushes = false →
    PopOut r q₀ tr₁ t id c v
  /-- The producer writes the slot of the next element only, which is neither the slot of a waiting
  element nor one that the consumer has obtained. -/
  write : ∀ {tr₁ tr₂ t id c a b}, tr = tr₁ ++ .op t id c (.writeByte a b) () :: tr₂ →
    c.pushes = true ∧
    (∃ i, i < r.objSize ∧ a = r.base (p + (queue q₀ tr₁).length) + i) ∧
    (∀ k, pops tr₁ ≤ k → k < (queue q₀ tr₁).length →
      r.index (p + (queue q₀ tr₁).length) ≠ r.index (p + k)) ∧
    ∀ k, Obtained p tr₁ k → r.index (p + (queue q₀ tr₁).length) ≠ r.index (p + k)
  /-- The consumer reads the oldest element, after it was produced. -/
  read : ∀ {tr₁ tr₂ t id c a b}, tr = tr₁ ++ .op t id c (.readByte a) b :: tr₂ →
    c.pushes = false ∧ ∃ i e, i < r.objSize ∧ a = r.base (p + pops tr₁) + i ∧
      (queue q₀ tr₁)[pops tr₁]? = some e ∧ ∀ y, e i = some y → b = y
  /-- The head advances only when a slot is free. -/
  publish : ∀ {tr₁ tr₂ t id c v}, tr = tr₁ ++ .op t id c (.storeHead v) () :: tr₂ →
    (queue q₀ tr₁).length < pops tr₁ + r.cap
  /-- The tail advances only over an element that was produced. -/
  giveBack : ∀ {tr₁ tr₂ t id c v}, tr = tr₁ ++ .op t id c (.storeTail v) () :: tr₂ →
    pops tr₁ < (queue q₀ tr₁).length

/-! ## The invariant at an event -/

variable {r : Ring SizeT} {q₀ : List Elem} {p : Nat} {tr tr₁ tr₂ : List (Ev Tid r.objSize)}
  {m m₀ : Mem SizeT Tid} {R : SRoles Tid r.objSize} {producer consumer t : Tid} {id : Nat}
  {c : Call r.objSize} {l l' : Role r.objSize} {v : Out}

theorem RingInv.push_ret (hk : Known producer consumer tr R)
    (h : RingInv r producer consumer p q₀ tr m R) (ht : R t = some ⟨id, c, l⟩)
    (hc : c.pushes = true) (hfin : (proto r).final l v) : PushOut r q₀ tr t id c v := by
  have hof : l.Of c := hk.role t _ ht
  have hknow := h.push t _ ht
  have hnone : l.pushPos = none → ∀ c ∈ pushClaims tr, c.id ≠ id := hk.push.other t _ ht
  cases l with
  | start c' =>
    obtain rfl : c' = c := hof
    cases c' with
    | push args =>
      obtain ⟨hlen, rfl⟩ := hfin
      exact .tooLarge hlen (hnone rfl)
    | pop size => cases hc
    | _ => exact hfin.elim
  | full c' =>
    obtain ⟨rfl, -⟩ := hof
    cases c' with
    | push args =>
      obtain rfl : v = .code ringbufFull [] := hfin
      exact .full hknow (hnone rfl)
    | place ws commit =>
      obtain rfl : v = .null := hfin
      exact .null hknow (hnone rfl)
    | _ => exact hfin.elim
  | filling c' h' j =>
    obtain ⟨rfl, -⟩ := hof
    cases c' with
    | place ws commit =>
      cases commit with
      | true => exact hfin.elim
      | false =>
        obtain rfl : v = .done false := hfin
        exact .left (hnone rfl)
    | _ => exact hfin.elim
  | pushed c' h' =>
    obtain ⟨rfl, -⟩ := hof
    have hmem := hk.push.own t _ h' ht rfl
    cases c' with
    | push args =>
      obtain rfl : v = .code (toSsize h') [] := hfin
      exact .pushed hmem
    | place ws commit =>
      cases commit with
      | true =>
        obtain rfl : v = .done true := hfin
        exact .placed hmem
      | false => exact hfin.elim
    | _ => exact hfin.elim
  | empty | draining | popped => simp [Role.Of, hc] at hof
  | _ => exact hfin.elim

theorem RingInv.pop_ret (hk : Known producer consumer tr R)
    (h : RingInv r producer consumer p q₀ tr m R) (ht : R t = some ⟨id, c, l⟩)
    (hc : c.pushes = false) (hfin : (proto r).final l v) : PopOut r q₀ tr t id c v := by
  have hof : l.Of c := hk.role t _ ht
  have hknow := h.pop t _ ht
  have hnone : l.popPos = none → ∀ c ∈ popClaims tr, c.id ≠ id := hk.pop.other t _ ht
  obtain rfl : t = consumer := by
    have := hk.caller t _ ht
    rwa [hc] at this
  cases l with
  | start c' =>
    obtain rfl : c' = c := hof
    cases c' with
    | pop size =>
      obtain ⟨hlen, rfl⟩ := hfin
      exact .tooLarge hlen (hnone rfl)
    | push args => cases hc
    | _ => exact hfin.elim
  | empty c' =>
    obtain ⟨rfl, -⟩ := hof
    cases c' with
    | pop size =>
      obtain rfl : v = .code ringbufEmpty [] := hfin
      exact .empty hknow (hnone rfl)
    | take read =>
      obtain rfl : v = .null := hfin
      exact .null hknow (hnone rfl)
    | _ => exact hfin.elim
  | draining c' d bs =>
    obtain ⟨rfl, -⟩ := hof
    cases c' with
    | take read =>
      obtain rfl : v = .done false := hfin
      obtain ⟨rfl, hsome, -⟩ := hknow
      obtain ⟨K, -, hlt, hK⟩ := h.some hsome
      exact .left (by omega) (hnone rfl)
    | _ => exact hfin.elim
  | popped c' d bs =>
    obtain ⟨rfl, -, hlen⟩ := hof
    cases c' with
    | pop size =>
      obtain rfl : v = .code (toSsize d) bs := hfin
      obtain ⟨k, e, hcl, hget, hagree⟩ := hknow
      exact .popped hcl hget (hlen size rfl) hagree
    | take read =>
      obtain rfl : v = .done true := hfin
      exact .taken (hk.pop.own t _ d ht rfl)
    | _ => exact hfin.elim
  | full | filling | pushed => simp [Role.Of, hc] at hof
  | _ => exact hfin.elim

theorem RingInv.filling {c' : Call r.objSize} {h' : SizeT} {j : Nat}
    (hk : Known producer consumer tr R) (h : RingInv r producer consumer p q₀ tr m R)
    (ht : R t = some ⟨id, c, .filling c' h' j⟩) :
    r.addr (h' &&& r.mask) = r.base (p + (queue q₀ tr).length) ∧
      (queue q₀ tr).length < pops tr + r.cap := by
  obtain ⟨rfl, hc, -⟩ : c' = c ∧ c.pushes = true ∧ _ := hk.role t _ ht
  obtain rfl : t = producer := by
    have := hk.caller t _ ht
    rwa [hc] at this
  obtain ⟨rfl, hfree, -⟩ := h.push t _ ht
  obtain ⟨D, -, hDp, hDc⟩ := h.free hfree
  exact ⟨h.addr_head, by omega⟩

theorem RingInv.write {a : Nat} {b : Byte} (hk : Known producer consumer tr R)
    (h : RingInv r producer consumer p q₀ tr m R) (ht : R t = some ⟨id, c, l⟩)
    (hm : Trans r l (.writeByte a b) () l') :
    c.pushes = true ∧ (∃ i, i < r.objSize ∧ a = r.base (p + (queue q₀ tr).length) + i) ∧
      (queue q₀ tr).length < pops tr + r.cap := by
  have hof : l.Of c := hk.role t _ ht
  cases hm with
  | @copyIn args h' j _ hb =>
    obtain ⟨rfl, hc, hlen⟩ := hof
    obtain ⟨haddr, hlt⟩ := h.filling hk ht
    have hj : j < args.length := (List.getElem?_eq_some_iff.1 hb).1
    exact ⟨hc, ⟨j, Nat.lt_of_lt_of_le hj (hlen args rfl), by rw [haddr]⟩, hlt⟩
  | @place ws commit h' j w hw =>
    obtain ⟨rfl, hc, -⟩ := hof
    obtain ⟨haddr, hlt⟩ := h.filling hk ht
    exact ⟨hc, ⟨w.1, w.1.isLt, by rw [haddr]⟩, hlt⟩

theorem RingInv.draining {c' : Call r.objSize} {d : SizeT} {bs : List Byte} {i : Nat}
    (h : RingInv r producer consumer p q₀ tr m R) (hi : i < r.objSize)
    (ht : R t = some ⟨id, c, .draining c' d bs⟩) :
    r.addr (d &&& r.mask) = r.base (p + pops tr) ∧ ∃ e, (queue q₀ tr)[pops tr]? = some e ∧
      ∀ y, e i = some y → m.buffer (r.base (p + pops tr) + i) = y := by
  obtain ⟨rfl, -, e, hget, -⟩ := h.pop t _ ht
  exact ⟨h.addr_tail, e, hget, fun y hy => h.stored (pops tr) e le_rfl hget i y hi hy⟩

theorem RingInv.read {a : Nat} {b : Byte} (hk : Known producer consumer tr R)
    (h : RingInv r producer consumer p q₀ tr m R) (ht : R t = some ⟨id, c, l⟩)
    (hm : Trans r l (.readByte a) b l') (hb : m.buffer a = b) :
    c.pushes = false ∧ ∃ i e, i < r.objSize ∧ a = r.base (p + pops tr) + i ∧
      (queue q₀ tr)[pops tr]? = some e ∧ ∀ y, e i = some y → b = y := by
  have hof : l.Of c := hk.role t _ ht
  subst hb
  cases hm with
  | @copyOut size d bs _ hlt hsize =>
    have hi : bs.length < r.objSize := Nat.lt_of_lt_of_le hlt hsize
    obtain ⟨haddr, e, hget, hy⟩ := h.draining hi ht
    rw [haddr]
    exact ⟨hof.2, bs.length, e, hi, rfl, hget, hy⟩
  | @take read d bs _ j hj =>
    obtain ⟨haddr, e, hget, hy⟩ := h.draining hj ht
    rw [haddr]
    exact ⟨hof.2, j, e, hj, rfl, hget, hy⟩

theorem RingInv.publish {x : SizeT} (hk : Known producer consumer tr R)
    (h : RingInv r producer consumer p q₀ tr m R) (ht : R t = some ⟨id, c, l⟩)
    (hm : Trans r l (.storeHead x) () l') : (queue q₀ tr).length < pops tr + r.cap := by
  have hof : l.Of c := hk.role t _ ht
  cases hm with
  | publish => exact (h.filling hk ht).2
  | @endPush c' h' =>
    obtain ⟨rfl, hc, -⟩ := hof
    obtain rfl : t = producer := by
      have := hk.caller t _ ht
      rwa [hc] at this
    obtain ⟨rfl, hfree, -⟩ := h.push t _ ht
    obtain ⟨D, -, hDp, hDc⟩ := h.free hfree
    omega

theorem RingInv.giveBack {x : SizeT} (h : RingInv r producer consumer p q₀ tr m R)
    (ht : R t = some ⟨id, c, l⟩) (hm : Trans r l (.storeTail x) () l') :
    pops tr < (queue q₀ tr).length := by
  have hknow := h.pop t _ ht
  cases hm with
  | giveBack _ =>
    obtain ⟨-, -, e, hget, -⟩ := hknow
    exact (List.getElem?_eq_some_iff.1 hget).1
  | endPop =>
    obtain ⟨-, -, e, hget, -⟩ := hknow
    exact (List.getElem?_eq_some_iff.1 hget).1

/-- A head that is not the tail lies above it. -/
theorem RingInv.sawHead [DecidableEq Tid] {o : Op SizeT} {x : o.Res} {h' : SizeT}
    (hk : Known producer consumer tr R) (h : RingInv r producer consumer p q₀ tr m R)
    (ht : R t = some ⟨id, c, l⟩) (hc : c.pushes = false) (hx : (exec t o m).1 = x)
    (hs : sawHead o x = some h') (hne : h' ≠ word (p + pops tr)) :
    pops tr < (queue q₀ tr).length := by
  obtain rfl : t = consumer := by
    have := hk.caller t _ ht
    rwa [hc] at this
  have hle := h.le
  subst hx
  cases o with
  | getLocalHead =>
    obtain rfl : m.localHead t = h' := Option.some.inj hs
    obtain ⟨K, -, hlt, hK⟩ := h.some (h.tail ▸ hne)
    omega
  | loadHead =>
    obtain rfl : m.head = h' := Option.some.inj hs
    rw [h.head, Ne, Ring.empty_iff r (by omega) (by have := h.room; omega)] at hne
    omega
  | _ => cases hs

/-! ## Every run -/

section Run

variable [DecidableEq Tid]
  {cf : Config (Op SizeT) Op.Res Empty Tid (Call r.objSize) Out (Mem SizeT Tid)}

theorem inv_inductive (hs : Start r producer consumer p q₀ m₀) :
    Inductive (proto r) (sys r producer consumer) m₀ fun tr m R =>
      Known producer consumer tr R ∧ RingInv r producer consumer p q₀ tr m R :=
  known_inductive.and (ringInv_inductive hs)

theorem inv_before_op {o : Op SizeT} {x : o.Res} (hs : Start r producer consumer p q₀ m₀)
    (h : Run (sys r producer consumer) (.start m₀) (tr₁ ++ .op t id c o x :: tr₂) cf) :
    ∃ m R l l', Known producer consumer tr₁ R ∧ RingInv r producer consumer p q₀ tr₁ m R ∧
      R t = some ⟨id, c, l⟩ ∧ Trans r l o x l' ∧ (exec t o m).1 = x := by
  obtain ⟨n, m, m', R, l, l', -, ⟨hk, hi⟩, ht, hm, he⟩ :=
    Inductive.before_op (follows r producer consumer) (inv_inductive hs) h
  exact ⟨m, R, l, l', hk, hi, ht, hm, congrArg Prod.fst he⟩

theorem inv_before_ret (hs : Start r producer consumer p q₀ m₀)
    (h : Run (sys r producer consumer) (.start m₀) (tr₁ ++ .ret t id c v :: tr₂) cf) :
    ∃ m R l, Known producer consumer tr₁ R ∧ RingInv r producer consumer p q₀ tr₁ m R ∧
      R t = some ⟨id, c, l⟩ ∧ (proto r).final l v := by
  obtain ⟨n, m, R, l, -, ⟨hk, hi⟩, ht, hfin⟩ :=
    Inductive.before_ret (follows r producer consumer) (inv_inductive hs) h
  exact ⟨m, R, l, hk, hi, ht, hfin⟩

/-- An element that the consumer has obtained is waiting. -/
theorem Obtained.waiting {k : Nat} (hs : Start r producer consumer p q₀ m₀)
    (h : Run (sys r producer consumer) (.start m₀) tr cf) (ho : Obtained p tr k) :
    pops tr = k ∧ k < (queue q₀ tr).length := by
  obtain ⟨tr₁, t, id, c, o, x, tr₂, h', rfl, hc, hsaw, hne, hk₁, hk₂⟩ := ho
  obtain ⟨m, R, l, l', hk, hi, ht, -, hx⟩ := inv_before_op hs h
  rw [← hk₁] at hne
  have hlt := hi.sawHead hk ht hc hx hsaw hne
  exact ⟨hk₂, hk₁ ▸ Nat.lt_of_lt_of_le hlt (length_queue_le _)⟩

/-- **The ring is a bounded FIFO** from any state whose caches lie in the window. -/
theorem Start.fifo (hs : Start r producer consumer p q₀ m₀)
    (h : Run (sys r producer consumer) (.start m₀) tr cf) : Fifo r p q₀ tr cf.shared := by
  obtain ⟨R, -, -, hk, hi⟩ := Inductive.run (follows r producer consumer) (inv_inductive hs) h
  exact {
    counters := ⟨hi.head, hi.tail⟩
    bounds := ⟨hi.le, hi.room⟩
    pushPos := hi.pushPos
    popPos := hi.popPos
    push_once := hk.push.nodup
    pop_once := hk.pop.nodup
    push_ret := fun htr hc => by
      obtain ⟨m, R, l, hk, hi, ht, hfin⟩ := inv_before_ret hs (htr ▸ h)
      exact hi.push_ret hk ht hc hfin
    pop_ret := fun htr hc => by
      obtain ⟨m, R, l, hk, hi, ht, hfin⟩ := inv_before_ret hs (htr ▸ h)
      exact hi.pop_ret hk ht hc hfin
    write := fun htr => by
      subst htr
      obtain ⟨m, R, l, l', hk, hi, ht, hm, -⟩ := inv_before_op hs h
      obtain ⟨hc, hslot, hroom⟩ := hi.write hk ht hm
      refine ⟨hc, hslot, fun k hk₁ hk₂ => Stored.index_ne hroom hk₁ hk₂, fun k ho => ?_⟩
      obtain ⟨c₁, h₁, -⟩ := h.cut
      obtain ⟨rfl, hlt⟩ := ho.waiting hs h₁
      exact Stored.index_ne hroom le_rfl hlt
    read := fun htr => by
      obtain ⟨m, R, l, l', hk, hi, ht, hm, hx⟩ := inv_before_op hs (htr ▸ h)
      exact hi.read hk ht hm hx
    publish := fun htr => by
      obtain ⟨m, R, l, l', hk, hi, ht, hm, -⟩ := inv_before_op hs (htr ▸ h)
      exact hi.publish hk ht hm
    giveBack := fun htr => by
      obtain ⟨m, R, l, l', hk, hi, ht, hm, -⟩ := inv_before_op hs (htr ▸ h)
      exact hi.giveBack ht hm }

end Run

/-- A new ring, used by threads that have used no other. -/
theorem start_getBuf (hproducer : m₀.localTail producer = 0)
    (hconsumer : m₀.localHead consumer = 0) :
    Start r producer consumer 0 [] (getBuf r .noSlot m₀) where
  head := rfl
  tail := rfl
  room := Nat.zero_le _
  stored := .nil
  cacheTail := ⟨0, hproducer, le_rfl, Nat.zero_le _⟩
  cacheHead := ⟨0, hconsumer, le_rfl, le_rfl⟩

/-- **The Spsc ring is a bounded FIFO**, for runs of any length. -/
theorem spsc_fifo [DecidableEq Tid]
    {cf : Config (Op SizeT) Op.Res Empty Tid (Call r.objSize) Out (Mem SizeT Tid)}
    (hproducer : m₀.localTail producer = 0) (hconsumer : m₀.localHead consumer = 0)
    (h : Run (sys r producer consumer) (.start (getBuf r .noSlot m₀)) tr cf) :
    Fifo r 0 [] tr cf.shared :=
  (start_getBuf hproducer hconsumer).fifo h

/-- Thread `true` pushes by copy and in place, thread `false` pops in place and by copy. -/
def pushPop : List (Bool × Call tinyRing.objSize) :=
  [(true, .push [7]), (true, .place [(⟨0, by decide⟩, 9)] true), (false, .take (.ret true)),
    (false, .pop 1)]

theorem spsc_fifo_pushPop :
    Fifo tinyRing 0 []
      (seqTrace exec (body tinyRing) pushPop 0 (getBuf tinyRing .noSlot .zero))
      (seqState exec (body tinyRing) pushPop (getBuf tinyRing .noSlot .zero)) :=
  spsc_fifo (rfl : (Mem.zero : Mem SizeT Bool).localTail true = 0)
    (rfl : (Mem.zero : Mem SizeT Bool).localHead false = 0) (Run.seq pushPop (by decide) 0 _)

end Spsc

end RingBuf
