import RingBuf.Spsc.Protocol
import RingBuf.Window

/-!
# The Spsc invariant

The history says which elements have been produced and how many have been given back; the counters
are the words of these numbers, the waiting elements stand in their slots, and the two caches lie
in the window: `local_tail` is an old tail and `local_head` an old head that the tail has not
passed. The invariant holds of every run, of any length, from any state in which it holds
(`Start`), so counters may start anywhere and wrap (`ringInv_inductive`).
-/

namespace RingBuf

open Conc Word LawfulWord

namespace Spsc

variable {Tid : Type}

/-- An event of the Spsc system. -/
abbrev Ev (Tid : Type) (n : Nat) := Event (Op SizeT) Op.Res Tid (Call n) Out

/-- The roles of the threads of the Spsc system. -/
abbrev SRoles (Tid : Type) (n : Nat) := Roles Tid (Call n) (Role n)

/-! ## The history as a queue -/

/-- The uses that have advanced `head_`, in their order. -/
abbrev pushClaims {n : Nat} (tr : List (Ev Tid n)) : List (Claim Tid (Call n) SizeT) :=
  claims putHead tr

/-- The uses that have advanced `tail_`, in their order. -/
abbrev popClaims {n : Nat} (tr : List (Ev Tid n)) : List (Claim Tid (Call n) SizeT) :=
  claims putTail tr

/-- The elements produced, after those of `q₀` that were there before. -/
def queue {n : Nat} (q₀ : List Elem) (tr : List (Ev Tid n)) : List Elem :=
  q₀ ++ (pushClaims tr).map (·.call.elem)

/-- The number of elements given back. -/
def pops {n : Nat} (tr : List (Ev Tid n)) : Nat := (popClaims tr).length

/-- At some moment of call `id`, when it read the tail, `n` elements were waiting. -/
def SawFull {k : Nat} (q₀ : List Elem) (n : Nat) (tr : List (Ev Tid k)) (id : Nat) : Prop :=
  ∃ tr₁ t c x tr₂, tr = tr₁ ++ .op t id c .loadTail x :: tr₂ ∧
    (queue q₀ tr₁).length = pops tr₁ + n

/-- At some moment of call `id`, when it read the head, no element was waiting. -/
def SawEmpty {k : Nat} (q₀ : List Elem) (tr : List (Ev Tid k)) (id : Nat) : Prop :=
  ∃ tr₁ t c x tr₂, tr = tr₁ ++ .op t id c .loadHead x :: tr₂ ∧ (queue q₀ tr₁).length = pops tr₁

variable {r : Ring SizeT} {q₀ : List Elem} {p : Nat} {tr tr' : List (Ev Tid r.objSize)}
  {m m' : Mem SizeT Tid} {R : SRoles Tid r.objSize} {producer consumer : Tid}

theorem SawFull.append {n id : Nat} (h : SawFull q₀ n tr id) (tr' : List (Ev Tid r.objSize)) :
    SawFull q₀ n (tr ++ tr') id := by
  obtain ⟨tr₁, t, c, x, tr₂, rfl, hl⟩ := h
  exact ⟨tr₁, t, c, x, tr₂ ++ tr', by simp, hl⟩

theorem SawEmpty.append {id : Nat} (h : SawEmpty q₀ tr id) (tr' : List (Ev Tid r.objSize)) :
    SawEmpty q₀ (tr ++ tr') id := by
  obtain ⟨tr₁, t, c, x, tr₂, rfl, hl⟩ := h
  exact ⟨tr₁, t, c, x, tr₂ ++ tr', by simp, hl⟩

theorem queue_same (h : pushClaims tr' = pushClaims tr) : queue q₀ tr' = queue q₀ tr := by
  rw [queue, h, queue]

theorem queue_snoc {c : Claim Tid (Call r.objSize) SizeT}
    (h : pushClaims tr' = pushClaims tr ++ [c]) :
    queue q₀ tr' = queue q₀ tr ++ [c.call.elem] := by
  rw [queue, h, List.map_append, ← List.append_assoc]
  rfl

theorem length_queue_le (tr' : List (Ev Tid r.objSize)) :
    (queue q₀ tr).length ≤ (queue q₀ (tr ++ tr')).length := by
  simp only [queue, List.length_append, List.length_map]
  exact Nat.add_le_add_left (length_claims_le tr') _

theorem popClaims_same (h : pops (tr ++ tr') ≤ pops tr) : popClaims (tr ++ tr') = popClaims tr := by
  have hle : (claims putTail (tr ++ tr')).length ≤ (claims putTail tr).length := h
  rw [claims_append, List.length_append] at hle
  have hlen : (claims putTail tr').length = 0 := by omega
  rw [popClaims, claims_append, List.length_eq_zero_iff.1 hlen, List.append_nil]

/-! ## The uses in progress -/

/-- The position the use has published. -/
def Role.pushPos {n : Nat} : Role n → Option SizeT
  | .pushed _ h => some h
  | _ => none

/-- The position the use has given back. -/
def Role.popPos {n : Nat} : Role n → Option SizeT
  | .popped _ d _ => some d
  | _ => none

/-- The role is one of call `c`. -/
def Role.Of {n : Nat} (c : Call n) : Role n → Prop
  | .start c' => c' = c
  | .pushHead c' _ | .pushTail c' _ | .pushRefresh c' _ _ | .full c' | .filling c' _ _
  | .ending c' _ | .pushed c' _ =>
    c' = c ∧ c.pushes = true ∧ ∀ args, c = .push args → args.length ≤ n
  | .popTail c' _ | .popCache c' _ | .popHead c' _ _ | .empty c' | .draining c' _ _
  | .leaving c' _ _ => c' = c ∧ c.pushes = false
  | .popped c' _ bs => c' = c ∧ c.pushes = false ∧ ∀ size, c = .pop size → bs.length = size

theorem Role.of_trans {c : Call r.objSize} {l l' : Role r.objSize} {o : Op SizeT} {x : o.Res}
    (hm : Trans r l o x l') (h : l.Of c) : l'.Of c := by
  cases hm with
  | loadHead hc hlen =>
    obtain rfl := h
    exact ⟨rfl, hc, hlen⟩
  | popTail hc _ =>
    obtain rfl := h
    exact ⟨rfl, hc⟩
  | giveBack hlen =>
    obtain ⟨rfl, hc⟩ := h
    exact ⟨rfl, hc, by rintro _ ⟨⟩; exact hlen⟩
  | endPop =>
    obtain ⟨rfl, hc⟩ := h
    exact ⟨rfl, hc, by simp⟩
  | _ => exact h

/-- Which claims belong to which use, and who makes which use. -/
structure Known (producer consumer : Tid) (tr : List (Ev Tid r.objSize))
    (R : SRoles Tid r.objSize) : Prop where
  push : Once putHead Role.pushPos tr R
  pop : Once putTail Role.popPos tr R
  role : ∀ t a, R t = some a → a.role.Of a.call
  caller : ∀ t a, R t = some a → t = if a.call.pushes then producer else consumer

theorem known_inductive [DecidableEq Tid] {m₀ : Mem SizeT Tid} :
    Inductive (proto r) (sys r producer consumer) m₀ fun tr _ R =>
      Known producer consumer tr R := by
  have hpush : Inductive (proto r) (sys r producer consumer) m₀ fun tr _ R =>
      Once putHead Role.pushPos tr R := by
    refine once_inductive putHead Role.pushPos (fun _ => rfl) (fun hm ho => ?_) (fun hm ho => ?_)
    · cases hm <;> first | rfl | cases ho
    · cases hm <;> cases ho
      · exact ⟨rfl, congrArg some (BitVec.add_sub_cancel ..).symm⟩
      · exact ⟨rfl, congrArg some (BitVec.add_sub_cancel ..).symm⟩
  have hpop : Inductive (proto r) (sys r producer consumer) m₀ fun tr _ R =>
      Once putTail Role.popPos tr R := by
    refine once_inductive putTail Role.popPos (fun _ => rfl) (fun hm ho => ?_) (fun hm ho => ?_)
    · cases hm <;> first | rfl | cases ho
    · cases hm <;> cases ho
      · exact ⟨rfl, congrArg some (BitVec.add_sub_cancel ..).symm⟩
      · exact ⟨rfl, congrArg some (BitVec.add_sub_cancel ..).symm⟩
  have hrole : Inductive (proto r) (sys r producer consumer) m₀ fun _ _ R =>
      ∀ t a, R t = some a → a.role.Of a.call :=
    roles_inductive (fun c l => Role.Of c l) (fun _ => rfl) Role.of_trans
  have hcaller : Inductive (proto r) (sys r producer consumer) m₀ fun _ _ R =>
      ∀ t a, R t = some a → t = if a.call.pushes then producer else consumer :=
    caller_inductive (fun t (c : Call r.objSize) => t = if c.pushes then producer else consumer)
      fun ha => ha
  exact (hpush.both (hpop.both (hrole.both hcaller))).congr fun tr s R =>
    ⟨fun h => ⟨h.1, h.2.1, h.2.2.1, h.2.2.2⟩, fun h => ⟨h.push, h.pop, h.role, h.caller⟩⟩

/-! ## What the two sides know -/

/-- What the producer knows: its head is current, and by its cached tail its slot is free. -/
def PushKnows (r : Ring SizeT) (p : Nat) (q₀ : List Elem) (tr : List (Ev Tid r.objSize))
    (m : Mem SizeT Tid) (t : Tid) (id : Nat) : Role r.objSize → Prop
  | .pushHead _ h | .pushTail _ h => h = m.head
  | .pushRefresh _ h d => h = m.head ∧
    (∃ D, d = word D ∧ D ≤ p + pops tr ∧ p + (queue q₀ tr).length ≤ D + r.cap) ∧
    (h - d ≥ r.objNum → SawFull q₀ r.cap tr id)
  | .full _ => SawFull q₀ r.cap tr id
  | .filling c h j => h = m.head ∧ ¬ h - m.localTail t ≥ r.objNum ∧
    Copied r m.buffer (p + (queue q₀ tr).length) (c.part j)
  | .ending c h => h = m.head ∧ ¬ h - m.localTail t ≥ r.objNum ∧
    Copied r m.buffer (p + (queue q₀ tr).length) c.elem
  | _ => True

/-- What the consumer knows: its tail is current, and by its cached head its slot holds the oldest
element. -/
def PopKnows (r : Ring SizeT) (p : Nat) (q₀ : List Elem) (tr : List (Ev Tid r.objSize))
    (m : Mem SizeT Tid) (t : Tid) (id : Nat) : Role r.objSize → Prop
  | .popTail _ d | .popCache _ d => d = m.tail
  | .popHead _ d h => d = m.tail ∧
    (∃ K, h = word K ∧ p + pops tr ≤ K ∧ K ≤ p + (queue q₀ tr).length) ∧
    (h = d → SawEmpty q₀ tr id)
  | .empty _ => SawEmpty q₀ tr id
  | .draining _ d bs | .leaving _ d bs => d = m.tail ∧ m.localHead t ≠ d ∧
    ∃ e, (queue q₀ tr)[pops tr]? = some e ∧ Agree bs e
  | .popped c d bs => ∃ (k : Nat) (e : Elem), (popClaims tr)[k]? = some (Claim.mk t id c d) ∧
    (queue q₀ tr)[k]? = some e ∧ Agree bs e
  | _ => True

/-- What the history says of the memory. -/
structure RingState (r : Ring SizeT) (producer consumer : Tid) (p : Nat) (q₀ : List Elem)
    (tr : List (Ev Tid r.objSize)) (m : Mem SizeT Tid) : Prop where
  head : m.head = word (p + (queue q₀ tr).length)
  tail : m.tail = word (p + pops tr)
  pushPos : InOrder (fun k => word (p + q₀.length + k)) (pushClaims tr)
  popPos : InOrder (fun k => word (p + k)) (popClaims tr)
  le : pops tr ≤ (queue q₀ tr).length
  room : (queue q₀ tr).length ≤ pops tr + r.cap
  stored : Stored r m.buffer p (queue q₀ tr) (pops tr)
  /-- `local_tail` is a tail that the head is not more than a lap ahead of. -/
  cacheTail : ∃ D, m.localTail producer = word D ∧ D ≤ p + pops tr ∧
    p + (queue q₀ tr).length ≤ D + r.cap
  /-- `local_head` is a head that the tail has not passed. -/
  cacheHead : ∃ K, m.localHead consumer = word K ∧ p + pops tr ≤ K ∧
    K ≤ p + (queue q₀ tr).length

/-- The invariant of the ring. -/
structure RingInv (r : Ring SizeT) (producer consumer : Tid) (p : Nat) (q₀ : List Elem)
    (tr : List (Ev Tid r.objSize)) (m : Mem SizeT Tid) (R : SRoles Tid r.objSize) : Prop
    extends RingState r producer consumer p q₀ tr m where
  push : ∀ t a, R t = some a → PushKnows r p q₀ tr m t a.id a.role
  pop : ∀ t a, R t = some a → PopKnows r p q₀ tr m t a.id a.role

/-- The consumer's moves leave the producer what it knows. -/
theorem PushKnows.stable {t : Tid} {id : Nat} {l : Role r.objSize} {e : Ev Tid r.objSize}
    (h : PushKnows r p q₀ tr m t id l) (hpush : pushClaims (tr ++ [e]) = pushClaims tr)
    (hpops : pops tr ≤ pops (tr ++ [e])) (hh : m'.head = m.head) (hbuf : m'.buffer = m.buffer)
    (hcache : m'.localTail = m.localTail) :
    PushKnows r p q₀ (tr ++ [e]) m' t id l := by
  have hq : queue q₀ (tr ++ [e]) = queue q₀ tr := queue_same hpush
  cases l with
  | pushHead c h' => exact h.trans hh.symm
  | pushTail c h' => exact h.trans hh.symm
  | pushRefresh c h' d =>
    obtain ⟨h₁, ⟨D, h₂, h₃, h₄⟩, h₅⟩ := h
    exact ⟨h₁.trans hh.symm, ⟨D, h₂, by omega, hq ▸ h₄⟩, fun hf => (h₅ hf).append _⟩
  | full c => exact SawFull.append h _
  | filling c h' j =>
    obtain ⟨h₁, h₂, h₃⟩ := h
    exact ⟨h₁.trans hh.symm, hcache ▸ h₂, by rw [hq, hbuf]; exact h₃⟩
  | ending c h' =>
    obtain ⟨h₁, h₂, h₃⟩ := h
    exact ⟨h₁.trans hh.symm, hcache ▸ h₂, by rw [hq, hbuf]; exact h₃⟩
  | _ => trivial

/-- The producer's moves leave the consumer what it knows. -/
theorem PopKnows.stable {t : Tid} {id : Nat} {l : Role r.objSize} {e : Ev Tid r.objSize}
    (h : PopKnows r p q₀ tr m t id l) (hpop : popClaims (tr ++ [e]) = popClaims tr)
    (hq : ∃ more, queue q₀ (tr ++ [e]) = queue q₀ tr ++ more) (ht : m'.tail = m.tail)
    (hcache : m'.localHead = m.localHead) :
    PopKnows r p q₀ (tr ++ [e]) m' t id l := by
  obtain ⟨more, hq⟩ := hq
  have hpops : pops (tr ++ [e]) = pops tr := congrArg List.length hpop
  have hget : ∀ (k : Nat) (x : Elem), (queue q₀ tr)[k]? = some x →
      (queue q₀ (tr ++ [e]))[k]? = some x := by
    intro k x hk
    rw [hq, List.getElem?_append_left (List.getElem?_eq_some_iff.1 hk).1, hk]
  cases l with
  | popTail c d => exact h.trans ht.symm
  | popCache c d => exact h.trans ht.symm
  | popHead c d h' =>
    obtain ⟨h₁, ⟨K, h₂, h₃, h₄⟩, h₅⟩ := h
    refine ⟨h₁.trans ht.symm, ⟨K, h₂, by rw [hpops]; exact h₃, ?_⟩, fun he => (h₅ he).append _⟩
    rw [hq, List.length_append]
    omega
  | empty c => exact SawEmpty.append h _
  | draining c d bs =>
    obtain ⟨h₁, hne, x, h₂, h₃⟩ := h
    exact ⟨h₁.trans ht.symm, hcache ▸ hne, x, by rw [hpops]; exact hget _ x h₂, h₃⟩
  | leaving c d bs =>
    obtain ⟨h₁, hne, x, h₂, h₃⟩ := h
    exact ⟨h₁.trans ht.symm, hcache ▸ hne, x, by rw [hpops]; exact hget _ x h₂, h₃⟩
  | popped c d bs =>
    obtain ⟨k, x, h₁, h₂, h₃⟩ := h
    exact ⟨k, x, by rw [hpop]; exact h₁, hget k x h₂, h₃⟩
  | _ => trivial

theorem PopKnows.of_pushes {t : Tid} {id : Nat} {c : Call r.objSize} {l : Role r.objSize}
    (hof : l.Of c) (hc : c.pushes = true) : PopKnows r p q₀ tr m t id l := by
  cases l with
  | popTail | popCache | popHead | empty | draining | leaving => simp [Role.Of, hc] at hof
  | popped => simp [Role.Of, hc] at hof
  | _ => trivial

theorem PushKnows.of_pops {t : Tid} {id : Nat} {c : Call r.objSize} {l : Role r.objSize}
    (hof : l.Of c) (hc : c.pushes = false) : PushKnows r p q₀ tr m t id l := by
  cases l with
  | pushHead | pushTail | pushRefresh | full | filling | ending => simp [Role.Of, hc] at hof
  | _ => trivial

/-! ## The moves -/

namespace RingState

theorem same (h : RingState r producer consumer p q₀ tr m)
    (hpush : pushClaims tr' = pushClaims tr) (hpop : popClaims tr' = popClaims tr)
    (hhead : m'.head = m.head) (htail : m'.tail = m.tail)
    (hbuf : Stored r m'.buffer p (queue q₀ tr) (pops tr))
    (hcacheTail : ∃ D, m'.localTail producer = word D ∧ D ≤ p + pops tr ∧
      p + (queue q₀ tr).length ≤ D + r.cap)
    (hcacheHead : ∃ K, m'.localHead consumer = word K ∧ p + pops tr ≤ K ∧
      K ≤ p + (queue q₀ tr).length) :
    RingState r producer consumer p q₀ tr' m' := by
  have hq : queue q₀ tr' = queue q₀ tr := queue_same hpush
  have hn : pops tr' = pops tr := congrArg List.length hpop
  refine ⟨?_, ?_, hpush ▸ h.pushPos, hpop ▸ h.popPos, ?_, ?_, ?_, ?_, ?_⟩
  · rw [hhead, hq, h.head]
  · rw [htail, hn, h.tail]
  · rw [hq, hn]; exact h.le
  · rw [hq, hn]; exact h.room
  · rw [hq, hn]; exact hbuf
  · rw [hq, hn]; exact hcacheTail
  · rw [hq, hn]; exact hcacheHead

theorem addr_head (h : RingState r producer consumer p q₀ tr m) :
    r.addr (m.head &&& r.mask) = r.base (p + (queue q₀ tr).length) := by
  rw [h.head, r.addr_word]

theorem addr_tail (h : RingState r producer consumer p q₀ tr m) :
    r.addr (m.tail &&& r.mask) = r.base (p + pops tr) := by
  rw [h.tail, r.addr_word]

theorem free (h : RingState r producer consumer p q₀ tr m)
    (hfree : ¬ m.head - m.localTail producer ≥ r.objNum) :
    ∃ D, m.localTail producer = word D ∧ D ≤ p + pops tr ∧
      p + (queue q₀ tr).length < D + r.cap := by
  obtain ⟨D, hD, hDp, hDc⟩ := h.cacheTail
  have hle := h.le
  rw [h.head, hD, Ring.full_iff r (by omega) hDc] at hfree
  exact ⟨D, hD, hDp, by omega⟩

theorem some (h : RingState r producer consumer p q₀ tr m)
    (hsome : m.localHead consumer ≠ m.tail) :
    ∃ K, m.localHead consumer = word K ∧ p + pops tr < K ∧
      K ≤ p + (queue q₀ tr).length := by
  obtain ⟨K, hK, hKp, hKq⟩ := h.cacheHead
  have hroom := h.room
  rw [hK, h.tail, Ne, Ring.empty_iff r hKp (by omega)] at hsome
  exact ⟨K, hK, by omega, hKq⟩

theorem storeHead (h : RingState r producer consumer p q₀ tr m)
    {c : Claim Tid (Call r.objSize) SizeT} (hpush : pushClaims tr' = pushClaims tr ++ [c])
    (hpop : popClaims tr' = popClaims tr) (hpos : c.pos = m.head)
    (hfree : ¬ m.head - m.localTail producer ≥ r.objNum)
    (hfill : Copied r m.buffer (p + (queue q₀ tr).length) c.call.elem) :
    RingState r producer consumer p q₀ tr' { m with head := m.head + 1 } := by
  have hq : queue q₀ tr' = queue q₀ tr ++ [c.call.elem] := queue_snoc hpush
  have hn : pops tr' = pops tr := congrArg List.length hpop
  have hlen : (queue q₀ tr').length = (queue q₀ tr).length + 1 := by
    rw [hq, List.length_append, List.length_singleton]
  have hle := h.le
  obtain ⟨D, hD, hDp, hDc⟩ := h.free hfree
  refine ⟨?_, ?_, ?_, hpop ▸ h.popPos, by omega, by omega, ?_, ?_, ?_⟩
  · show m.head + 1 = _
    rw [h.head, hlen, word_succ, Nat.add_assoc]
  · rw [hn]; exact h.tail
  · rw [hpush]
    refine h.pushPos.snoc ?_
    have hql : (queue q₀ tr).length = q₀.length + (pushClaims tr).length := by simp [queue]
    rw [hpos, h.head, hql, Nat.add_assoc]
  · rw [hq, hn]; exact h.stored.push hfill
  · exact ⟨D, hD, by omega, by omega⟩
  · obtain ⟨K, hK, hKp, hKq⟩ := h.cacheHead
    exact ⟨K, hK, by omega, by omega⟩

theorem storeTail (h : RingState r producer consumer p q₀ tr m)
    {c : Claim Tid (Call r.objSize) SizeT} (hpush : pushClaims tr' = pushClaims tr)
    (hpop : popClaims tr' = popClaims tr ++ [c]) (hpos : c.pos = m.tail)
    (hsome : m.localHead consumer ≠ m.tail) :
    RingState r producer consumer p q₀ tr' { m with tail := m.tail + 1 } := by
  have hq : queue q₀ tr' = queue q₀ tr := queue_same hpush
  have hn : pops tr' = pops tr + 1 := by
    rw [pops, hpop, List.length_append, List.length_singleton, pops]
  have hroom := h.room
  obtain ⟨K, hK, hKp, hKq⟩ := h.some hsome
  refine ⟨?_, ?_, hpush ▸ h.pushPos, ?_, by rw [hq]; omega, by rw [hq]; omega, ?_, ?_, ?_⟩
  · rw [hq]; exact h.head
  · show m.tail + 1 = _
    rw [h.tail, hn, word_succ, Nat.add_assoc]
  · rw [hpop]
    refine h.popPos.snoc ?_
    rw [hpos, h.tail, pops]
  · rw [hq, hn]; exact h.stored.pop
  · obtain ⟨D, hD, hDp, hDc⟩ := h.cacheTail
    exact ⟨D, hD, by omega, by rw [hq]; exact hDc⟩
  · exact ⟨K, hK, by omega, by rw [hq]; exact hKq⟩

end RingState

section Moves

variable [DecidableEq Tid] {t : Tid} {id : Nat} {c : Call r.objSize} {l' : Role r.objSize}
  {e : Ev Tid r.objSize}

/-- A move of the producer. -/
theorem RingInv.producer_move (h : RingInv r producer consumer p q₀ tr m R)
    (hk : Known producer consumer (tr ++ [e]) (Function.update R t (some ⟨id, c, l'⟩)))
    (hc : c.pushes = true) (hpop : popClaims (tr ++ [e]) = popClaims tr)
    (hq : ∃ more, queue q₀ (tr ++ [e]) = queue q₀ tr ++ more) (htail : m'.tail = m.tail)
    (hcache : m'.localHead = m.localHead)
    (hs : RingState r producer consumer p q₀ (tr ++ [e]) m')
    (hl' : PushKnows r p q₀ (tr ++ [e]) m' t id l') :
    RingInv r producer consumer p q₀ (tr ++ [e]) m' (Function.update R t (some ⟨id, c, l'⟩)) := by
  have htp : t = producer := by
    have := hk.caller t _ (Function.update_self ..)
    rwa [hc] at this
  refine ⟨hs, fun u a hu => ?_, fun u a hu => ?_⟩
  · rcases update_some_iff.1 hu with ⟨rfl, hy⟩ | ⟨hne, -⟩
    · obtain rfl := Option.some.inj hy
      exact hl'
    · -- There is no second producer.
      cases hpu : a.call.pushes with
      | false => exact PushKnows.of_pops (hk.role u a hu) hpu
      | true =>
        have hup := hk.caller u a hu
        rw [hpu] at hup
        exact absurd (hup.trans htp.symm) hne
  · rcases update_some_iff.1 hu with ⟨-, hy⟩ | ⟨-, hu⟩
    · obtain rfl := Option.some.inj hy
      exact PopKnows.of_pushes (hk.role t _ (Function.update_self ..)) hc
    · exact (h.pop u a hu).stable hpop hq htail hcache

/-- A move of the consumer. -/
theorem RingInv.consumer_move (h : RingInv r producer consumer p q₀ tr m R)
    (hk : Known producer consumer (tr ++ [e]) (Function.update R t (some ⟨id, c, l'⟩)))
    (hc : c.pushes = false) (hpush : pushClaims (tr ++ [e]) = pushClaims tr)
    (hpops : pops tr ≤ pops (tr ++ [e])) (hhead : m'.head = m.head) (hbuf : m'.buffer = m.buffer)
    (hcache : m'.localTail = m.localTail)
    (hs : RingState r producer consumer p q₀ (tr ++ [e]) m')
    (hl' : PopKnows r p q₀ (tr ++ [e]) m' t id l') :
    RingInv r producer consumer p q₀ (tr ++ [e]) m' (Function.update R t (some ⟨id, c, l'⟩)) := by
  have htc : t = consumer := by
    have := hk.caller t _ (Function.update_self ..)
    rwa [hc] at this
  refine ⟨hs, fun u a hu => ?_, fun u a hu => ?_⟩
  · rcases update_some_iff.1 hu with ⟨-, hy⟩ | ⟨-, hu⟩
    · obtain rfl := Option.some.inj hy
      exact PushKnows.of_pops (hk.role t _ (Function.update_self ..)) hc
    · exact (h.push u a hu).stable hpush hpops hhead hbuf hcache
  · rcases update_some_iff.1 hu with ⟨rfl, hy⟩ | ⟨hne, -⟩
    · obtain rfl := Option.some.inj hy
      exact hl'
    · -- There is no second consumer.
      cases hpu : a.call.pushes with
      | true => exact PopKnows.of_pushes (hk.role u a hu) hpu
      | false =>
        have huc := hk.caller u a hu
        rw [hpu] at huc
        exact absurd (huc.trans htc.symm) hne

theorem RingInv.idle_move (h : RingInv r producer consumer p q₀ tr m R)
    (hpush : pushClaims (tr ++ [e]) = pushClaims tr) (hpop : popClaims (tr ++ [e]) = popClaims tr)
    (hs : RingState r producer consumer p q₀ (tr ++ [e]) m)
    {y : Option (Active (Call r.objSize) (Role r.objSize))}
    (hy : ∀ b, y = some b → ∃ c, b.role = .start c) :
    RingInv r producer consumer p q₀ (tr ++ [e]) m (Function.update R t y) := by
  have hpops : pops (tr ++ [e]) = pops tr := congrArg List.length hpop
  refine ⟨hs, fun u a hu => ?_, fun u a hu => ?_⟩
  · rcases update_some_iff.1 hu with ⟨-, hb⟩ | ⟨-, hu⟩
    · obtain ⟨c, hc⟩ := hy a hb
      rw [hc]
      trivial
    · exact (h.push u a hu).stable hpush hpops.ge rfl rfl rfl
  · rcases update_some_iff.1 hu with ⟨-, hb⟩ | ⟨-, hu⟩
    · obtain ⟨c, hc⟩ := hy a hb
      rw [hc]
      trivial
    · exact (h.pop u a hu).stable hpop ⟨[], by rw [queue_same hpush, List.append_nil]⟩ rfl rfl

variable {l : Role r.objSize} {o : Op SizeT} {x : o.Res}

theorem ringInv_storeHead
    (hk' : Known t consumer (tr ++ [.op t id c (.storeHead (m.head + 1)) ()])
      (Function.update R t (some ⟨id, c, .pushed c m.head⟩)))
    (h : RingInv r t consumer p q₀ tr m R) (hc : c.pushes = true)
    (hfree : ¬ m.head - m.localTail t ≥ r.objNum)
    (hcopied : Copied r m.buffer (p + (queue q₀ tr).length) c.elem) :
    RingInv r t consumer p q₀ (tr ++ [.op t id c (.storeHead (m.head + 1)) ()])
      { m with head := m.head + 1 } (Function.update R t (some ⟨id, c, .pushed c m.head⟩)) := by
  have hpush : pushClaims (tr ++ [.op t id c (.storeHead (m.head + 1)) ()]) =
      pushClaims tr ++ [⟨t, id, c, m.head + 1 - 1⟩] := claims_snoc_some rfl
  have hpop : popClaims (tr ++ [.op t id c (.storeHead (m.head + 1)) ()]) = popClaims tr :=
    claims_snoc_none rfl
  exact h.producer_move hk' hc hpop ⟨[c.elem], queue_snoc hpush⟩ rfl rfl
    (h.storeHead hpush hpop (BitVec.add_sub_cancel ..) hfree hcopied) trivial

theorem ringInv_storeTail {bs : List Byte}
    (hk' : Known producer t (tr ++ [.op t id c (.storeTail (m.tail + 1)) ()])
      (Function.update R t (some ⟨id, c, .popped c m.tail bs⟩)))
    (h : RingInv r producer t p q₀ tr m R) (hc : c.pushes = false)
    (hsome : m.localHead t ≠ m.tail) {x : Elem} (hx : (queue q₀ tr)[pops tr]? = some x)
    (hbs : Agree bs x) :
    RingInv r producer t p q₀ (tr ++ [.op t id c (.storeTail (m.tail + 1)) ()])
      { m with tail := m.tail + 1 }
      (Function.update R t (some ⟨id, c, .popped c m.tail bs⟩)) := by
  have hpush : pushClaims (tr ++ [.op t id c (.storeTail (m.tail + 1)) ()]) = pushClaims tr :=
    claims_snoc_none rfl
  have hpop : popClaims (tr ++ [.op t id c (.storeTail (m.tail + 1)) ()]) =
      popClaims tr ++ [⟨t, id, c, m.tail⟩] := by
    have hlast : popClaims (tr ++ [.op t id c (.storeTail (m.tail + 1)) ()]) =
        popClaims tr ++ [⟨t, id, c, m.tail + 1 - 1⟩] := claims_snoc_some rfl
    rw [hlast, BitVec.add_sub_cancel]
  have hq : queue q₀ (tr ++ [.op t id c (.storeTail (m.tail + 1)) ()]) = queue q₀ tr :=
    queue_same hpush
  refine h.consumer_move hk' hc hpush ?_ rfl rfl rfl (h.storeTail hpush hpop rfl hsome)
    ⟨pops tr, x, ?_, ?_, hbs⟩
  · rw [pops, pops, hpop, List.length_append]
    exact Nat.le_add_right ..
  · rw [hpop, pops, List.getElem?_concat_length]
  · rw [hq, hx]

theorem ringInv_push (hk : Known producer consumer tr R)
    (hk' : Known producer consumer (tr ++ [.op t id c o x])
      (Function.update R t (some ⟨id, c, l'⟩)))
    (h : RingInv r producer consumer p q₀ tr m R) (ht : R t = some ⟨id, c, l⟩)
    (hc : c.pushes = true) (hm : Trans r l o x l') (he : exec t o m = (x, m')) :
    RingInv r producer consumer p q₀ (tr ++ [.op t id c o x]) m'
      (Function.update R t (some ⟨id, c, l'⟩)) := by
  have hof := hk.role t _ ht
  have hknow := h.push t _ ht
  obtain rfl : t = producer := by
    have := hk.caller t _ ht
    rwa [hc] at this
  have hcapTail := h.cacheTail
  have hle := h.le
  have hroom := h.room
  -- What all moves but the store of the head share.
  have quiet (h₁ : putHead o x = none) (h₂ : putTail o x = none) (hhead : m'.head = m.head)
      (htail : m'.tail = m.tail) (hlh : m'.localHead = m.localHead)
      (hbuf : Stored r m'.buffer p (queue q₀ tr) (pops tr))
      (hcache : ∃ D, m'.localTail t = word D ∧ D ≤ p + pops tr ∧
        p + (queue q₀ tr).length ≤ D + r.cap)
      (hl' : PushKnows r p q₀ (tr ++ [.op t id c o x]) m' t id l') :
      RingInv r t consumer p q₀ (tr ++ [.op t id c o x]) m'
        (Function.update R t (some ⟨id, c, l'⟩)) := by
    have hpush : pushClaims (tr ++ [.op t id c o x]) = pushClaims tr := claims_snoc_none h₁
    have hpop : popClaims (tr ++ [.op t id c o x]) = popClaims tr := claims_snoc_none h₂
    have hcacheHead : ∃ K, m'.localHead consumer = word K ∧ p + pops tr ≤ K ∧
        K ≤ p + (queue q₀ tr).length := by
      rw [hlh]
      exact h.cacheHead
    exact h.producer_move hk' hc hpop ⟨[], by rw [queue_same hpush, List.append_nil]⟩ htail hlh
      (h.same hpush hpop hhead htail hbuf hcache hcacheHead) hl'
  have keep (h₁ : putHead o x = none) (h₂ : putTail o x = none)
      (hl' : PushKnows r p q₀ tr m' t id l') :
      PushKnows r p q₀ (tr ++ [.op t id c o x]) m' t id l' :=
    hl'.stable (claims_snoc_none h₁) (congrArg List.length (claims_snoc_none h₂)).ge rfl rfl rfl
  cases hm with
  | loadHead _ _ =>
    obtain ⟨rfl, rfl⟩ := Prod.mk.inj he
    exact quiet rfl rfl rfl rfl rfl h.stored hcapTail (keep rfl rfl rfl)
  | @cacheRoom c' h' d hd =>
    obtain ⟨rfl, rfl⟩ := Prod.mk.inj he
    refine quiet rfl rfl rfl rfl rfl h.stored hcapTail (keep rfl rfl ⟨hknow, hd, ?_⟩)
    rw [Call.part_zero]
    exact .none
  | cacheFull _ =>
    obtain ⟨-, rfl⟩ := Prod.mk.inj he
    exact quiet rfl rfl rfl rfl rfl h.stored hcapTail (keep rfl rfl hknow)
  | @pushTail c' h' d =>
    obtain ⟨rfl, rfl⟩ := Prod.mk.inj he
    have hh : h' = m.head := hknow
    have hq : queue q₀ (tr ++ [.op t id c .loadTail m.tail]) = queue q₀ tr :=
      queue_same (claims_snoc_none rfl)
    have hn : pops (tr ++ [.op t id c .loadTail m.tail]) = pops tr :=
      congrArg List.length (claims_snoc_none rfl)
    refine quiet rfl rfl rfl rfl rfl h.stored hcapTail ⟨hh, ⟨p + pops tr, h.tail, ?_, ?_⟩, ?_⟩
    · rw [hn]
    · rw [hq]; omega
    · intro hfull
      rw [hh, h.head, h.tail, Ring.full_iff r (by omega) (by omega)] at hfull
      exact ⟨tr, t, c, m.tail, [], rfl, by omega⟩
  | setFull hd =>
    obtain ⟨-, rfl⟩ := Prod.mk.inj he
    obtain ⟨-, ⟨D, rfl, hDp, hDc⟩, hsaw⟩ := hknow
    exact quiet rfl rfl rfl rfl rfl h.stored ⟨D, Function.update_self .., hDp, hDc⟩
      (keep rfl rfl (hsaw hd))
  | @setRoom c' h' d hd =>
    obtain ⟨-, rfl⟩ := Prod.mk.inj he
    obtain ⟨hh, ⟨D, rfl, hDp, hDc⟩, -⟩ := hknow
    refine quiet rfl rfl rfl rfl rfl h.stored ⟨D, Function.update_self .., hDp, hDc⟩
      (keep rfl rfl ⟨hh, ?_, ?_⟩)
    · show ¬ h' - Function.update m.localTail t (word D) t ≥ r.objNum
      rw [Function.update_self]
      exact hd
    · rw [Call.part_zero]
      exact .none
  | @copyIn args h' j b hb =>
    obtain ⟨-, rfl⟩ := Prod.mk.inj he
    obtain ⟨rfl, -, hlen⟩ := hof
    obtain ⟨rfl, hfree, hcopied⟩ := hknow
    obtain ⟨D, -, hDp, hDc⟩ := h.free hfree
    have hj : j < r.objSize :=
      Nat.lt_of_lt_of_le (List.getElem?_eq_some_iff.1 hb).1 (hlen args rfl)
    rw [h.addr_head] at quiet keep ⊢
    refine quiet rfl rfl rfl rfl rfl (h.stored.write (by omega) hj) hcapTail
      (keep rfl rfl ⟨rfl, hfree, ?_⟩)
    show Copied r _ _ (Elem.ofList (args.take (j + 1)))
    rw [Elem.ofList_take_succ hb]
    exact hcopied.put
  | @place ws commit h' j w hw =>
    obtain ⟨-, rfl⟩ := Prod.mk.inj he
    obtain ⟨rfl, hfree, hcopied⟩ := hknow
    obtain ⟨D, -, hDp, hDc⟩ := h.free hfree
    rw [h.addr_head] at quiet keep ⊢
    refine quiet rfl rfl rfl rfl rfl (h.stored.write (by omega) w.1.isLt) hcapTail
      (keep rfl rfl ⟨rfl, hfree, ?_⟩)
    show Copied r _ _ (written (ws.take (j + 1)))
    rw [written_take_succ hw]
    exact hcopied.put
  | @publish args h' =>
    obtain ⟨-, rfl⟩ := Prod.mk.inj he
    obtain ⟨rfl, -⟩ := hof
    obtain ⟨rfl, hfree, hcopied⟩ := hknow
    exact ringInv_storeHead hk' h hc hfree hcopied
  | @endHead ws h' h'' =>
    obtain ⟨rfl, rfl⟩ := Prod.mk.inj he
    obtain ⟨rfl, hfree, hcopied⟩ := hknow
    exact quiet rfl rfl rfl rfl rfl h.stored hcapTail (keep rfl rfl ⟨rfl, hfree, hcopied⟩)
  | @endPush c' h' =>
    obtain ⟨-, rfl⟩ := Prod.mk.inj he
    obtain ⟨rfl, -⟩ := hof
    obtain ⟨rfl, hfree, hcopied⟩ := hknow
    exact ringInv_storeHead hk' h hc hfree hcopied
  | popTail hc' _ =>
    obtain rfl := hof
    rw [hc] at hc'
    cases hc'
  | _ => simp [Role.Of, hc] at hof

theorem ringInv_pop (hk : Known producer consumer tr R)
    (hk' : Known producer consumer (tr ++ [.op t id c o x])
      (Function.update R t (some ⟨id, c, l'⟩)))
    (h : RingInv r producer consumer p q₀ tr m R) (ht : R t = some ⟨id, c, l⟩)
    (hc : c.pushes = false) (hm : Trans r l o x l') (he : exec t o m = (x, m')) :
    RingInv r producer consumer p q₀ (tr ++ [.op t id c o x]) m'
      (Function.update R t (some ⟨id, c, l'⟩)) := by
  have hof := hk.role t _ ht
  have hknow := h.pop t _ ht
  obtain rfl : t = consumer := by
    have := hk.caller t _ ht
    rwa [hc] at this
  have hcapHead := h.cacheHead
  have hle := h.le
  have hroom := h.room
  -- What all moves but the store of the tail share.
  have quiet (h₁ : putHead o x = none) (h₂ : putTail o x = none) (hhead : m'.head = m.head)
      (htail : m'.tail = m.tail) (hlt : m'.localTail = m.localTail) (hbuf : m'.buffer = m.buffer)
      (hcache : ∃ K, m'.localHead t = word K ∧ p + pops tr ≤ K ∧ K ≤ p + (queue q₀ tr).length)
      (hl' : PopKnows r p q₀ (tr ++ [.op t id c o x]) m' t id l') :
      RingInv r producer t p q₀ (tr ++ [.op t id c o x]) m'
        (Function.update R t (some ⟨id, c, l'⟩)) := by
    have hpush : pushClaims (tr ++ [.op t id c o x]) = pushClaims tr := claims_snoc_none h₁
    have hpop : popClaims (tr ++ [.op t id c o x]) = popClaims tr := claims_snoc_none h₂
    have hcacheTail : ∃ D, m'.localTail producer = word D ∧ D ≤ p + pops tr ∧
        p + (queue q₀ tr).length ≤ D + r.cap := by
      rw [hlt]
      exact h.cacheTail
    exact h.consumer_move hk' hc hpush (congrArg List.length hpop).ge hhead hbuf hlt
      (h.same hpush hpop hhead htail (hbuf ▸ h.stored) hcacheTail hcache) hl'
  have keep (h₁ : putHead o x = none) (h₂ : putTail o x = none)
      (hl' : PopKnows r p q₀ tr m' t id l') :
      PopKnows r p q₀ (tr ++ [.op t id c o x]) m' t id l' :=
    hl'.stable (claims_snoc_none h₂)
      ⟨[], by rw [queue_same (claims_snoc_none h₁), List.append_nil]⟩ rfl rfl
  -- The oldest element, as the cached head promises it.
  have oldest {K : Nat} (hlt : p + pops tr < K) (hK : K ≤ p + (queue q₀ tr).length) :
      ∃ e, (queue q₀ tr)[pops tr]? = some e ∧ Agree [] e :=
    ⟨_, List.getElem?_eq_getElem (by omega), .nil⟩
  cases hm with
  | popTail _ _ =>
    obtain ⟨rfl, rfl⟩ := Prod.mk.inj he
    exact quiet rfl rfl rfl rfl rfl rfl hcapHead (keep rfl rfl rfl)
  | cacheEmpty =>
    obtain ⟨-, rfl⟩ := Prod.mk.inj he
    exact quiet rfl rfl rfl rfl rfl rfl hcapHead (keep rfl rfl hknow)
  | @cacheSome c' d h' hne =>
    obtain ⟨rfl, rfl⟩ := Prod.mk.inj he
    obtain rfl : d = m.tail := hknow
    obtain ⟨K, -, hlt, hK⟩ := h.some hne
    exact quiet rfl rfl rfl rfl rfl rfl hcapHead (keep rfl rfl ⟨rfl, hne, oldest hlt hK⟩)
  | @popHead c' d h' =>
    obtain ⟨rfl, rfl⟩ := Prod.mk.inj he
    have hd : d = m.tail := hknow
    have hq : queue q₀ (tr ++ [.op t id c .loadHead m.head]) = queue q₀ tr :=
      queue_same (claims_snoc_none rfl)
    have hn : pops (tr ++ [.op t id c .loadHead m.head]) = pops tr :=
      congrArg List.length (claims_snoc_none rfl)
    refine quiet rfl rfl rfl rfl rfl rfl hcapHead ⟨hd, ⟨_, h.head, ?_, ?_⟩, ?_⟩
    · rw [hn]; omega
    · rw [hq]
    · intro hempty
      rw [hd, h.head, h.tail, Ring.empty_iff r (by omega) (by omega)] at hempty
      exact ⟨tr, t, c, m.head, [], rfl, by omega⟩
  | setEmpty =>
    obtain ⟨-, rfl⟩ := Prod.mk.inj he
    obtain ⟨-, ⟨K, rfl, hKp, hKq⟩, hsaw⟩ := hknow
    exact quiet rfl rfl rfl rfl rfl rfl ⟨K, Function.update_self .., hKp, hKq⟩
      (keep rfl rfl (hsaw rfl))
  | @setSome c' d h' hne =>
    obtain ⟨-, rfl⟩ := Prod.mk.inj he
    obtain ⟨rfl, ⟨K, rfl, hKp, hKq⟩, -⟩ := hknow
    have hne' := hne
    rw [h.tail, Ne, Ring.empty_iff r hKp (by omega)] at hne'
    refine quiet rfl rfl rfl rfl rfl rfl ⟨K, Function.update_self .., hKp, hKq⟩
      (keep rfl rfl ⟨rfl, ?_, oldest (by omega) hKq⟩)
    show Function.update m.localHead t (word K) t ≠ m.tail
    rw [Function.update_self]
    exact hne
  | @copyOut size d bs b hlt hsize =>
    obtain ⟨rfl, rfl⟩ := Prod.mk.inj he
    obtain ⟨rfl, hsome, e, hget, hagree⟩ := hknow
    refine quiet rfl rfl rfl rfl rfl rfl hcapHead (keep rfl rfl ⟨rfl, hsome, e, hget, ?_⟩)
    refine hagree.snoc fun y hy => ?_
    rw [h.addr_tail]
    exact h.stored (pops tr) e le_rfl hget _ y (by omega) hy
  | @take read d bs b j hj =>
    obtain ⟨-, rfl⟩ := Prod.mk.inj he
    exact quiet rfl rfl rfl rfl rfl rfl hcapHead (keep rfl rfl hknow)
  | giveBack _ =>
    obtain ⟨-, rfl⟩ := Prod.mk.inj he
    obtain ⟨rfl, -⟩ := hof
    obtain ⟨rfl, hsome, e, hget, hagree⟩ := hknow
    exact ringInv_storeTail hk' h hc hsome hget hagree
  | endTail =>
    obtain ⟨rfl, rfl⟩ := Prod.mk.inj he
    obtain ⟨rfl, hsome, e, hget, hagree⟩ := hknow
    exact quiet rfl rfl rfl rfl rfl rfl hcapHead (keep rfl rfl ⟨rfl, hsome, e, hget, hagree⟩)
  | endPop =>
    obtain ⟨-, rfl⟩ := Prod.mk.inj he
    obtain ⟨rfl, -⟩ := hof
    obtain ⟨rfl, hsome, e, hget, hagree⟩ := hknow
    exact ringInv_storeTail hk' h hc hsome hget hagree
  | loadHead hc' _ =>
    obtain rfl := hof
    rw [hc] at hc'
    cases hc'
  | _ => simp [Role.Of, hc] at hof

end Moves

/-! ## Every run -/

/-- A memory in which the elements `q₀` wait, the oldest at position `p`. -/
structure Start (r : Ring SizeT) (producer consumer : Tid) (p : Nat) (q₀ : List Elem)
    (m : Mem SizeT Tid) : Prop where
  head : m.head = word (p + q₀.length)
  tail : m.tail = word p
  room : q₀.length ≤ r.cap
  stored : Stored r m.buffer p q₀ 0
  cacheTail : ∃ D, m.localTail producer = word D ∧ D ≤ p ∧ p + q₀.length ≤ D + r.cap
  cacheHead : ∃ K, m.localHead consumer = word K ∧ p ≤ K ∧ K ≤ p + q₀.length

theorem Start.ringInv (h : Start r producer consumer p q₀ m) :
    RingInv r producer consumer p q₀ [] m fun _ => none := by
  have hq : queue q₀ ([] : List (Ev Tid r.objSize)) = q₀ := List.append_nil q₀
  refine ⟨⟨?_, h.tail, .nil, .nil, Nat.zero_le _, ?_, ?_, ?_, ?_⟩, by simp, by simp⟩
  · rw [hq]; exact h.head
  · rw [hq]; exact h.room.trans (Nat.le_add_left ..)
  · rw [hq]; exact h.stored
  · rw [hq]; exact h.cacheTail
  · rw [hq]; exact h.cacheHead

/-- **The invariant** holds along every run, of any length. -/
theorem ringInv_inductive [DecidableEq Tid] {m₀ : Mem SizeT Tid}
    (hs : Start r producer consumer p q₀ m₀) :
    InductiveUnder (proto r) (sys r producer consumer) m₀
      (fun tr _ R => Known producer consumer tr R)
      fun tr m R => RingInv r producer consumer p q₀ tr m R where
  init _ := hs.ringInv
  call _ _ h _ _ _ := by
    refine h.idle_move claims_snoc_call claims_snoc_call ?_ (by rintro _ ⟨⟩; exact ⟨_, rfl⟩)
    exact h.same claims_snoc_call claims_snoc_call rfl rfl h.stored h.cacheTail h.cacheHead
  op {n tr s R t id c l o x l' s'} _ hk h ht hm he hk' := by
    cases hc : c.pushes with
    | true => exact ringInv_push hk hk' h ht hc hm he
    | false => exact ringInv_pop hk hk' h ht hc hm he
  ret _ _ h _ _ _ := by
    refine h.idle_move claims_snoc_ret claims_snoc_ret ?_ (by simp)
    exact h.same claims_snoc_ret claims_snoc_ret rfl rfl h.stored h.cacheTail h.cacheHead
  env _ _ he _ := he.elim

end Spsc

end RingBuf
