import RingBuf.Block.Fifo
import RingBuf.Conc.Queue

/-!
# The blocking ring is linearizable

Every run of any number of threads is linearized by the stores of the counters (`block_linearized`):
a push that has to wait puts its element into the queue only after it has found a free slot, and a
pop takes the oldest one out after it has found one. The only calls without an effect are those that
ask for too many bytes. The difference of the counters, which the waiting threads test, is the
length of the queue.
-/

namespace RingBuf

open Conc Word LawfulWord

namespace Block

variable {Tid : Type}

/-- The effect a call may have. -/
inductive Effect : Call → Act Elem → Prop
  | push {args k} : Effect (.push args) (.enq k (.ofList args))
  | pop {size k e} : Effect (.pop size) (.deq k e)

/-- What a call on objects of `n` bytes returns after its effect, or without one. -/
inductive Returns (n : Nat) : Call → Ret → Option (Act Elem) → Prop
  | pushed {args} {k : Nat} :
      Returns n (.push args) ⟨toSsize (word k), []⟩ (some (.enq k (.ofList args)))
  | popped {size} {k : Nat} {bs e} : bs.length = size → Agree bs e →
      Returns n (.pop size) ⟨toSsize (word k), bs⟩ (some (.deq k e))
  | tooLarge {c} : c.size > n → Returns n c ⟨c.tooLarge, []⟩ none

/-- Pushes take effect when they store `head_`, pops when they store `tail_`. -/
def queueOps : QueueOps Op Op.Res Call SizeT Elem where
  put := putHead
  take := putTail
  elem := Call.elem
  apart o x := by
    cases o with
    | setHead v => exact .inr rfl
    | _ => exact .inl rfl

variable [DecidableEq Tid] {r : Ring SizeT} {tr tr₁ tr₂ : List (Ev Tid)} {m m₀ : BMem Tid}
  {R : BRoles Tid} {t : Tid} {id : Nat} {a : Call} {v : Ret} {c : Claim Tid Call SizeT}
  {cf : Config Op Op.Res Call Tid Call Ret (BMem Tid)}

theorem push_of_claim (h : Run (sys r Tid) (.start (getBlockBuf m₀)) tr cf)
    (hc : c ∈ pushClaims tr) : ∃ args, c.call = .push args := by
  obtain ⟨o, x, he, hx⟩ := exists_op_of_mem_claims hc
  obtain ⟨tr₁, tr₂, rfl⟩ := List.append_of_mem he
  obtain ⟨m, m', R, l, l', hi, ht, hm, -⟩ := inv_before_op h
  have hof := hi.known.role _ _ ht
  cases hm with
  | publish => exact ⟨_, hof.1.symm⟩
  | _ => cases hx

theorem pop_of_claim (h : Run (sys r Tid) (.start (getBlockBuf m₀)) tr cf)
    (hc : c ∈ popClaims tr) : ∃ size, c.call = .pop size := by
  obtain ⟨o, x, he, hx⟩ := exists_op_of_mem_claims hc
  obtain ⟨tr₁, tr₂, rfl⟩ := List.append_of_mem he
  obtain ⟨m, m', R, l, l', hi, ht, hm, -⟩ := inv_before_op h
  have hof := hi.known.role _ _ ht
  cases hm with
  | giveBack => exact ⟨_, hof.1.symm⟩
  | _ => cases hx

omit [DecidableEq Tid] in
theorem Inv.bounded (hi : Inv r tr m R) : queueOps.Bounded [] r.cap tr := by
  rw [QueueOps.Bounded, QueueOps.inserted, List.nil_append]
  exact ⟨hi.ring.le, hi.ring.room⟩

/-- What a call returns tells its effect. -/
theorem returns (h : Run (sys r Tid) (.start (getBlockBuf m₀)) (tr₁ ++ .ret t id a v :: tr₂) cf)
    (hspec : queueOps.LinSpec [] r.cap tr₁) :
    (∃ e, (id, e) ∈ (queueOps.lin [] tr₁).acts ∧ Returns r.objSize a v (some e)) ∨
      ((∀ d ∈ pushClaims tr₁, d.id ≠ id) ∧ (∀ d ∈ popClaims tr₁, d.id ≠ id) ∧
        Returns r.objSize a v none) := by
  obtain ⟨n, m, R, l, -, hi, ht, hfin⟩ :=
    Inductive.before_ret (follows r Tid) (inv_inductive m₀) h
  cases hi.ret ht hfin with
  | tooLarge hsize hpush hpop => exact .inr ⟨hpush, hpop, .tooLarge hsize⟩
  | pushed hmem =>
    obtain ⟨k, hk⟩ := List.mem_iff_getElem?.1 hmem
    have hput := hspec.put hk
    rw [List.length_nil, Nat.zero_add] at hput
    obtain rfl := hi.ring.pushPos k _ hk
    exact .inl ⟨_, hput, .pushed⟩
  | popped hk he hlen hagree =>
    obtain rfl := hi.ring.popPos _ _ hk
    refine .inl ⟨_, hspec.take hk ?_, .popped hlen hagree⟩
    rw [QueueOps.inserted, List.nil_append]
    exact he

theorem bounded (h : Run (sys r Tid) (.start (getBlockBuf m₀)) tr cf) (htr : tr = tr₁ ++ tr₂) :
    queueOps.Bounded [] r.cap tr₁ := by
  rw [htr] at h
  obtain ⟨c₁, h₁, -⟩ := h.cut
  obtain ⟨R, -, -, hi⟩ := Inductive.run (follows r Tid) (inv_inductive m₀) h₁
  exact hi.bounded

theorem linearized (h : Run (sys r Tid) (.start (getBlockBuf m₀)) tr cf) :
    Linearized r.cap [] Effect (Returns r.objSize) tr (queueOps.lin [] tr).acts := by
  obtain ⟨R, -, -, hi⟩ := Inductive.run (follows r Tid) (inv_inductive m₀) h
  refine h.linearized queueOps (bounded h) hi.known.push.nodup hi.known.pop.nodup ?_ ?_ ?_ ?_
  · intro c k k' e e' h₁ h₂
    cases h₁
    cases h₂
  · intro c hc k
    obtain ⟨args, hargs⟩ := push_of_claim h hc
    rw [hargs]
    exact .push
  · intro c hc k e
    obtain ⟨size, hsize⟩ := pop_of_claim h hc
    rw [hsize]
    exact .pop
  · intro tr₁ tr₂ t id c v htr hspec
    rw [htr] at h
    exact returns h hspec

/-- The counters differ by the length of the queue. -/
theorem length_queue (h : Run (sys r Tid) (.start (getBlockBuf m₀)) tr cf) :
    toNat (cf.shared.head - cf.shared.tail) = (queueOps.lin [] tr).queue.length := by
  obtain ⟨R, -, -, hi⟩ := Inductive.run (follows r Tid) (inv_inductive m₀) h
  have hcap := r.cap_le
  have hle := hi.ring.le
  have hroom := hi.ring.room
  rw [hi.ring.head, hi.ring.tail, toNat_word_sub hle (by omega),
    QueueOps.length_queue fun htr => bounded h htr, QueueOps.inserted, List.nil_append]
  rfl

/-- **The blocking ring is linearizable**, for runs of any length, and its counters differ by the
length of the queue. -/
theorem block_linearized (h : Run (sys r Tid) (.start (getBlockBuf m₀)) tr cf) :
    Linearized r.cap [] Effect (Returns r.objSize) tr (queueOps.lin [] tr).acts ∧
      toNat (cf.shared.head - cf.shared.tail) = (queueOps.lin [] tr).queue.length :=
  ⟨linearized h, length_queue h⟩

theorem run_pushPop :
    ∃ cf, Run (sys tinyRing Bool) (.start (getBlockBuf .zero)) (pushPop (getBlockBuf .zero)) cf ∧
      cf.shared = { pushState tinyRing [7] (getBlockBuf .zero) with tail := 1 } :=
  ⟨_, (Run.alone (c := .start (getBlockBuf .zero)) rfl trivial
    (alone_push (r := tinyRing) (t := true) (show [(7 : Byte)].length ≤ 64 by decide) rfl
      (show ¬ (0 - 0 : SizeT) ≥ 2 by decide))).trans
    (Run.alone rfl trivial (alone_pop (r := tinyRing) (t := false) (show 1 ≤ 64 by decide) rfl
      (show (0 + 1 : SizeT) ≠ 0 by decide))), rfl⟩

theorem block_linearized_pushPop :
    Linearized tinyRing.cap [] Effect (Returns tinyRing.objSize) (pushPop (getBlockBuf .zero))
        (queueOps.lin [] (pushPop (getBlockBuf .zero))).acts ∧
      toNat ((pushState tinyRing [7] (getBlockBuf .zero : BMem Bool)).head - 1) =
        (queueOps.lin [] (pushPop (getBlockBuf .zero))).queue.length := by
  obtain ⟨cf, h, hshared⟩ := run_pushPop
  have hlin := block_linearized h
  rw [hshared] at hlin
  exact hlin

end Block

end RingBuf
