import RingBuf.Block.Alone
import RingBuf.Block.Invariant

/-!
# The blocking ring is a bounded FIFO

Every run of any number of threads on a new ring is the history of a bounded queue (`block_fifo`),
however often the calls wait and are woken and however often the counters have wrapped. The order
of the queue is that of the critical sections: everything between taking the mutex and releasing it
is done by one call.
-/

namespace RingBuf

open Conc Word LawfulWord

namespace Block

variable {Tid : Type}

/-- What may come of call `id` of thread `t`, when the history is `tr`. -/
inductive Out (r : Ring SizeT) (tr : List (Ev Tid)) (t : Tid) (id : Nat) : Call → Ret → Prop
  | tooLarge {c} : c.size > r.objSize → (∀ d ∈ pushClaims tr, d.id ≠ id) →
      (∀ d ∈ popClaims tr, d.id ≠ id) → Out r tr t id c ⟨c.tooLarge, []⟩
  | pushed {args p} : ⟨t, id, .push args, p⟩ ∈ pushClaims tr →
      Out r tr t id (.push args) ⟨toSsize p, []⟩
  /-- Pop number `k` returns the bytes of element `k`. -/
  | popped {size k : Nat} {p : SizeT} {bs e} :
      (popClaims tr)[k]? = some (Claim.mk t id (Call.pop size) p) → (queue tr)[k]? = some e →
      bs.length = size → Agree bs e → Out r tr t id (.pop size) ⟨toSsize p, bs⟩

/-- Taking the mutex. -/
def takeMutex : (o : Op) → o.Res → Option Unit
  | .lock, _ | .relock _, _ => some ()
  | _, _ => none

/-- Releasing the mutex. -/
def dropMutex : Op → Bool
  | .unlock | .sleep _ => true
  | _ => false

/-- The call is in its critical section. -/
abbrev Inside (tr : List (Ev Tid)) (t : Tid) (id : Nat) : Prop :=
  Holds takeMutex dropMutex tr t id ()

/-- `tr` is the history of a bounded FIFO of `r.cap` elements, and it ends in `m`. -/
structure Fifo (r : Ring SizeT) (tr : List (Ev Tid)) (m : BMem Tid) : Prop where
  /-- The counters are the words of the numbers of elements pushed and popped. -/
  counters : m.head = word (queue tr).length ∧ m.tail = word (pops tr)
  bounds : pops tr ≤ (queue tr).length ∧ (queue tr).length ≤ pops tr + r.cap
  /-- Their difference modulo `2 ^ 64` is the number of waiting elements. -/
  diff : toNat (m.head - m.tail) = (queue tr).length - pops tr ∧ toNat (m.head - m.tail) ≤ r.cap
  pushPos : InOrder word (pushClaims tr)
  popPos : InOrder word (popClaims tr)
  /-- No call pushes or pops two elements. -/
  push_once : ((pushClaims tr).map Claim.id).Nodup
  pop_once : ((popClaims tr).map Claim.id).Nodup
  ret : ∀ {tr₁ tr₂ t id c v}, tr = tr₁ ++ .ret t id c v :: tr₂ → Out r tr₁ t id c v
  /-- A call that is too large does nothing to the ring. -/
  size_le : ∀ {tr₁ tr₂ t id c o x}, tr = tr₁ ++ .op t id c o x :: tr₂ → c.size ≤ r.objSize
  /-- Critical sections do not overlap. -/
  alone : ∀ {t u i j}, Inside tr t i → Inside tr u j → t = u ∧ i = j
  /-- Everything but taking the mutex is done in the critical section. -/
  inside : ∀ {tr₁ tr₂ t id c o x}, tr = tr₁ ++ .op t id c o x :: tr₂ → takeMutex o x = none →
    Inside tr₁ t id
  /-- A push writes the slot of the next element, which is not the slot of a waiting element. -/
  write : ∀ {tr₁ tr₂ t id c a b}, tr = tr₁ ++ .op t id c (.writeByte a b) () :: tr₂ →
    (∃ i, i < r.objSize ∧ a = r.base (queue tr₁).length + i) ∧
    ∀ k, pops tr₁ ≤ k → k < (queue tr₁).length → r.index (queue tr₁).length ≠ r.index k
  /-- A pop reads the bytes of the oldest element. -/
  read : ∀ {tr₁ tr₂ t id c a b}, tr = tr₁ ++ .op t id c (.readByte a) b :: tr₂ →
    ∃ i e, i < r.objSize ∧ a = r.base (pops tr₁) + i ∧ (queue tr₁)[pops tr₁]? = some e ∧
      ∀ y, e i = some y → b = y
  /-- The head advances only when a slot is free. -/
  publish : ∀ {tr₁ tr₂ t id c v}, tr = tr₁ ++ .op t id c (.setHead v) () :: tr₂ →
    (queue tr₁).length < pops tr₁ + r.cap
  /-- The tail advances only over an element that was pushed. -/
  giveBack : ∀ {tr₁ tr₂ t id c v}, tr = tr₁ ++ .op t id c (.setTail v) () :: tr₂ →
    pops tr₁ < (queue tr₁).length

/-! ## The invariant at an event -/

variable {r : Ring SizeT} {tr tr₁ tr₂ : List (Ev Tid)} {m m' m₀ : BMem Tid} {R : BRoles Tid}
  {t : Tid} {id : Nat} {c : Call} {l l' : Role} {v : Ret}

namespace Inv

theorem ret (h : Inv r tr m R) (ht : R t = some ⟨id, c, l⟩) (hfin : (proto r).final l v) :
    Out r tr t id c v := by
  have hof := h.known.role t _ ht
  have hknow := h.ring.know t _ ht
  cases l with
  | start c' =>
    obtain rfl : c' = c := hof
    obtain ⟨hsize, rfl⟩ := hfin
    exact .tooLarge hsize (h.known.push.other t _ ht rfl) (h.known.pop.other t _ ht rfl)
  | done c' p q bs =>
    obtain rfl : v = ⟨toSsize p, bs⟩ := hfin
    obtain ⟨rfl, -, hlen⟩ := hof
    obtain ⟨rfl, hresult⟩ := hknow
    cases c' with
    | push args =>
      obtain rfl := List.length_eq_zero_iff.1 hlen
      exact .pushed (h.known.push.own t _ p ht rfl)
    | pop size =>
      obtain ⟨k, e, hk, he, hagree⟩ := hresult
      exact .popped hk he hlen hagree
  | _ => exact hfin.elim

theorem size_le {o : Op} {x : o.Res} (h : Inv r tr m R) (ht : R t = some ⟨id, c, l⟩)
    (hm : Trans r l o x l') : c.size ≤ r.objSize := by
  have hof : l.Of r.objSize c := h.known.role t _ ht
  cases hm with
  | lock hsize =>
    obtain rfl := hof
    exact hsize
  | loadHead | loadTail | publish | giveBack | signal | unlock => exact hof.2.1
  | _ => exact hof.2

theorem write {a : Nat} {b : Byte} (h : Inv r tr m R) (ht : R t = some ⟨id, c, l⟩)
    (hm : Trans r l (.writeByte a b) () l') :
    (∃ i, i < r.objSize ∧ a = r.base (queue tr).length + i) ∧
      (queue tr).length < pops tr + r.cap := by
  have hsize := h.size_le ht hm
  have hof : l.Of r.objSize c := h.known.role t _ ht
  have hknow := h.ring.know t _ ht
  cases hm with
  | @copyIn args h' j _ hb =>
    obtain ⟨rfl, -⟩ := hof
    obtain ⟨rfl, hroom, -⟩ := hknow
    refine ⟨⟨j, Nat.lt_of_lt_of_le (List.getElem?_eq_some_iff.1 hb).1 hsize, ?_⟩, hroom⟩
    rw [show r.addr (Call.counter m (.push args) &&& r.mask) = r.base (queue tr).length
      from h.ring.addr_head]

theorem read {a : Nat} {b : Byte} (h : Inv r tr m R) (ht : R t = some ⟨id, c, l⟩)
    (hm : Trans r l (.readByte a) b l') (hb : b = m.buffer a) :
    ∃ i e, i < r.objSize ∧ a = r.base (pops tr) + i ∧ (queue tr)[pops tr]? = some e ∧
      ∀ y, e i = some y → b = y := by
  have hsize := h.size_le ht hm
  have hof : l.Of r.objSize c := h.known.role t _ ht
  have hknow := h.ring.know t _ ht
  cases hm with
  | @copyOut size d bs _ hlt =>
    obtain ⟨rfl, -⟩ := hof
    obtain ⟨rfl, -, e, hget, -⟩ := hknow
    have haddr : r.addr (Call.counter m (.pop size) &&& r.mask) = r.base (pops tr) :=
      h.ring.addr_tail
    have hi : bs.length < r.objSize := Nat.lt_of_lt_of_le hlt hsize
    refine ⟨bs.length, e, hi, by rw [haddr], hget, fun y hy => ?_⟩
    rw [hb, haddr]
    exact h.ring.read hget hi hy

theorem publish {x : SizeT} (h : Inv r tr m R) (ht : R t = some ⟨id, c, l⟩)
    (hm : Trans r l (.setHead x) () l') : (queue tr).length < pops tr + r.cap := by
  have hknow := h.ring.know t _ ht
  cases hm with
  | publish => exact hknow.2.2.1

theorem giveBack {x : SizeT} (h : Inv r tr m R) (ht : R t = some ⟨id, c, l⟩)
    (hm : Trans r l (.setTail x) () l') : pops tr < (queue tr).length := by
  have hknow := h.ring.know t _ ht
  cases hm with
  | giveBack => exact hknow.2.2.1

end Inv

/-! ## Critical sections -/

/-- The role is in the critical section. -/
def Role.inside (l : Role) : Option Unit := if l.holds then some () else none

theorem inside_inductive [DecidableEq Tid] {A : List (Ev Tid) → BMem Tid → BRoles Tid → Prop} :
    InductiveUnder (proto r) (sys r Tid) m₀ A fun tr _ R => ∀ t id p,
      Holds takeMutex dropMutex tr t id p ↔
        ∃ a, R t = some a ∧ a.id = id ∧ a.role.inside = some p := by
  refine held_inductive takeMutex dropMutex Role.inside (fun _ => rfl) ?_ ?_ ?_ ?_
  · intro l o x l' p hm ho
    cases hm <;> cases ho
    · exact ⟨rfl, rfl⟩
    · exact ⟨rfl, rfl⟩
  · intro l o x l' hm ho hd
    cases hm <;> cases hd
    · rfl
    · rfl
  · intro l o x l' hm ho hd
    cases hm with
    | lock _ | relock => cases ho
    | sleep | unlock => cases hd
    | _ => rfl
  · intro l v hfin
    cases l with
    | start | done => rfl
    | _ => exact hfin.elim

/-- Everything but taking the mutex is done by a holder. -/
theorem Role.inside_of_trans {o : Op} {x : o.Res} (hm : Trans r l o x l')
    (ho : takeMutex o x = none) : l.inside = some () := by
  cases hm with
  | lock _ | relock => cases ho
  | _ => rfl

/-! ## Every run -/

section Run

variable [DecidableEq Tid] {cf : Config Op Op.Res Call Tid Call Ret (BMem Tid)}

theorem inv_before_op {o : Op} {x : o.Res}
    (h : Run (sys r Tid) (.start (getBlockBuf m₀)) (tr₁ ++ .op t id c o x :: tr₂) cf) :
    ∃ m m' R l l', Inv r tr₁ m R ∧ R t = some ⟨id, c, l⟩ ∧ Trans r l o x l' ∧
      Exec t o m x m' := by
  obtain ⟨n, m, m', R, l, l', -, hi, ht, hm, he⟩ :=
    Inductive.before_op (follows r Tid) (inv_inductive m₀) h
  exact ⟨m, m', R, l, l', hi, ht, hm, he⟩

theorem inside_before_op {o : Op} {x : o.Res}
    (h : Run (sys r Tid) (.start (getBlockBuf m₀)) (tr₁ ++ .op t id c o x :: tr₂) cf)
    (ho : takeMutex o x = none) : Inside tr₁ t id := by
  obtain ⟨n, m, m', R, l, l', -, hi, ht, hm, -⟩ :=
    Inductive.before_op (follows r Tid) inside_inductive h
  exact (hi t id ()).2 ⟨_, ht, rfl, Role.inside_of_trans hm ho⟩

/-- Two calls are not in their critical sections at once. -/
theorem Inside.eq {u : Tid} {i j : Nat} (h : Run (sys r Tid) (.start (getBlockBuf m₀)) tr cf)
    (ht : Inside tr t i) (hu : Inside tr u j) : t = u ∧ i = j := by
  obtain ⟨R, -, -, hi, hin⟩ := Inductive.run (follows r Tid)
    ((inv_inductive m₀).and inside_inductive) h
  obtain ⟨a, ha, rfl, hal⟩ := (hin t i ()).1 ht
  obtain ⟨b, hb, rfl, hbl⟩ := (hin u j ()).1 hu
  have hheld : ∀ {w : Tid} {d : Active Call Role}, R w = some d → d.role.inside = some () →
      held (R w) = true := by
    intro w d hd hdl
    rw [hd]
    cases hh : d.role.holds with
    | true => exact hh
    | false => simp [Role.inside, hh] at hdl
  by_cases htu : t = u
  · subst htu
    obtain rfl := Option.some.inj (ha.symm.trans hb)
    exact ⟨rfl, rfl⟩
  · have hfalse := hi.mutex.alone (hheld hb hbl) htu
    rw [hheld ha hal] at hfalse
    cases hfalse

/-- **The blocking ring is a bounded FIFO**, for runs of any length. -/
theorem block_fifo (h : Run (sys r Tid) (.start (getBlockBuf m₀)) tr cf) :
    Fifo r tr cf.shared := by
  obtain ⟨R, -, -, hi⟩ := Inductive.run (follows r Tid) (inv_inductive m₀) h
  have hcap := r.cap_le
  have hle := hi.ring.le
  have hroom := hi.ring.room
  have hdiff : toNat (cf.shared.head - cf.shared.tail) = (queue tr).length - pops tr := by
    rw [hi.ring.head, hi.ring.tail]
    exact toNat_word_sub hle (by omega)
  exact {
    counters := ⟨hi.ring.head, hi.ring.tail⟩
    bounds := ⟨hle, hroom⟩
    diff := ⟨hdiff, by omega⟩
    pushPos := hi.ring.pushPos
    popPos := hi.ring.popPos
    push_once := hi.known.push.nodup
    pop_once := hi.known.pop.nodup
    ret := fun htr => by
      obtain ⟨n, m, R, l, -, hi, ht, hfin⟩ :=
        Inductive.before_ret (follows r Tid) (inv_inductive m₀) (htr ▸ h)
      exact hi.ret ht hfin
    size_le := fun htr => by
      obtain ⟨m, m', R, l, l', hi, ht, hm, -⟩ := inv_before_op (htr ▸ h)
      exact hi.size_le ht hm
    alone := fun ht hu => ht.eq h hu
    inside := fun htr ho => inside_before_op (htr ▸ h) ho
    write := fun htr => by
      obtain ⟨m, m', R, l, l', hi, ht, hm, -⟩ := inv_before_op (htr ▸ h)
      obtain ⟨hslot, hroom⟩ := hi.write ht hm
      refine ⟨hslot, fun k hk₁ hk₂ => ?_⟩
      have hne := Stored.index_ne (p := 0) hroom hk₁ hk₂
      rwa [Nat.zero_add, Nat.zero_add] at hne
    read := fun htr => by
      obtain ⟨m, m', R, l, l', hi, ht, hm, he⟩ := inv_before_op (htr ▸ h)
      exact hi.read ht hm he.1
    publish := fun htr => by
      obtain ⟨m, m', R, l, l', hi, ht, hm, -⟩ := inv_before_op (htr ▸ h)
      exact hi.publish ht hm
    giveBack := fun htr => by
      obtain ⟨m, m', R, l, l', hi, ht, hm, -⟩ := inv_before_op (htr ▸ h)
      exact hi.giveBack ht hm }

end Run

/-- Thread `true` pushes a byte and thread `false` pops it, from `m` on. -/
def pushPop (m : BMem Bool) : List (Ev Bool) :=
  .call true 0 (.push [7]) :: (opEvents true 0 (.push [7]) (pushOps tinyRing [7] m) ++
    [.ret true 0 (.push [7]) ⟨0, []⟩]) ++
  .call false 1 (.pop 1) ::
    (opEvents false 1 (.pop 1) (popOps tinyRing 1 (pushState tinyRing [7] m)) ++
      [.ret false 1 (.pop 1) ⟨0, [7]⟩])

theorem block_fifo_pushPop :
    Fifo tinyRing (pushPop (getBlockBuf .zero))
      { pushState tinyRing [7] (getBlockBuf .zero) with tail := 1 } :=
  block_fifo ((Run.alone (c := .start (getBlockBuf .zero)) rfl trivial
    (alone_push (r := tinyRing) (t := true) (show [(7 : Byte)].length ≤ 64 by decide) rfl
      (show ¬ (0 - 0 : SizeT) ≥ 2 by decide))).trans
    (Run.alone rfl trivial (alone_pop (r := tinyRing) (t := false) (show 1 ≤ 64 by decide) rfl
      (show (0 + 1 : SizeT) ≠ 0 by decide))))

end Block

end RingBuf
