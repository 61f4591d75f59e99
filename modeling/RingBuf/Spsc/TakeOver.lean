import RingBuf.Spsc.Fifo

/-!
# Replacing the consumer of an Spsc ring

A consumer that attaches to an existing ring starts with `local_head = 0`, whatever the counters
are. Everything it does from then on is right exactly if `0` is one of the counter values from
`tail_` to `head_` (`takeOver_iff`). Otherwise the cache differs from the tail, so the empty test
is passed without a look at the head, and the consumer runs past it.
-/

namespace RingBuf

open Conc Word LawfulWord

namespace Spsc

variable {Tid : Type} [DecidableEq Tid]

/-- What thread `t`, a new one, finds when it attaches with `MAP_SHM | MAP_EXISTS`: `get_buf` then
stores nothing, and the thread's own caches are zero. -/
def attach (t : Tid) (m : Mem SizeT Tid) : Mem SizeT Tid :=
  { m with
    localHead := Function.update m.localHead t 0
    localTail := Function.update m.localTail t 0 }

/-- The history `tr` of a new ring has led to `m`, with no call in progress. -/
def Quiescent (r : Ring SizeT) (producer consumer : Tid) (tr : List (Ev Tid r.objSize))
    (m : Mem SizeT Tid) : Prop :=
  ∃ m₀ cf, m₀.localTail producer = 0 ∧ m₀.localHead consumer = 0 ∧
    Run (sys r producer consumer) (.start (getBuf r .noSlot m₀)) tr cf ∧
    (∀ t, cf.thread t = .idle) ∧ cf.shared = m

/-- The elements published and not yet consumed. -/
def waiting {n : Nat} (tr : List (Ev Tid n)) : List Elem := (queue [] tr).drop (pops tr)

/-- What is expected of the consumer in a run `tr` that starts with the elements `q₀` waiting, the
oldest at position `p`, and ends in `m`. -/
structure Delivers (r : Ring SizeT) (p : Nat) (q₀ : List Elem) (tr : List (Ev Tid r.objSize))
    (m : Mem SizeT Tid) : Prop where
  counters : m.head = word (p + (queue q₀ tr).length) ∧ m.tail = word (p + pops tr)
  /-- The tail never passes the head. -/
  le : pops tr ≤ (queue q₀ tr).length
  /-- The `k`-th pop delivers the `k`-th element. -/
  pop_ret : ∀ {tr₁ tr₂ t id c v}, tr = tr₁ ++ .ret t id c v :: tr₂ → c.pushes = false →
    PopOut r q₀ tr₁ t id c v
  /-- A pop of a ring that is empty, and stays so until the pop returns, reports this. -/
  empty : ∀ {tr₁ tr₂ tr₃ t id c v}, tr = tr₁ ++ .call t id c :: tr₂ ++ .ret t id c v :: tr₃ →
    c.pushes = false → (∀ size, c = .pop size → size ≤ r.objSize) →
    (queue q₀ tr₁).length = pops tr₁ → pushClaims (tr₁ ++ .call t id c :: tr₂) = pushClaims tr₁ →
    v = .code ringbufEmpty [] ∨ v = .null

variable {r : Ring SizeT} {q₀ : List Elem} {p : Nat} {tr : List (Ev Tid r.objSize)}
  {m m₀ : Mem SizeT Tid} {producer consumer fresh t : Tid}

/-! ## A cache inside the window -/

/-- From a state whose caches lie in the window, all goes well. -/
theorem Start.delivers
    {cf : Config (Op SizeT) Op.Res Empty Tid (Call r.objSize) Out (Mem SizeT Tid)}
    (hs : Start r producer consumer p q₀ m₀)
    (h : Run (sys r producer consumer) (.start m₀) tr cf) : Delivers r p q₀ tr cf.shared := by
  have hfifo := hs.fifo h
  refine ⟨hfifo.counters, hfifo.bounds.1, hfifo.pop_ret, ?_⟩
  rintro tr₁ tr₂ tr₃ t id c v rfl hc hsize hempty hpush
  have hout := hfifo.pop_ret rfl hc
  obtain ⟨cf₁, h₁, -⟩ := h.cut
  have hle := (hs.fifo h₁).bounds.1
  rw [queue_same hpush, hempty] at hle
  -- The pop has consumed nothing, for there was nothing to consume.
  have hsame : popClaims (tr₁ ++ .call t id c :: tr₂) = popClaims tr₁ := popClaims_same hle
  have hnone : ∀ d ∈ popClaims (tr₁ ++ .call t id c :: tr₂), d.id ≠ id := by
    obtain ⟨s, R, hid, -⟩ :=
      Inductive.before_call (follows r producer consumer) (inv_inductive hs) h₁
    intro d hd
    rw [hsame] at hd
    exact Nat.ne_of_lt (id_lt_of_mem_claims hid hd)
  cases hout with
  | tooLarge hlen _ => exact absurd (hsize _ rfl) (by omega)
  | empty _ _ => exact .inl rfl
  | null _ _ => exact .inr rfl
  | popped hcl _ _ _ => exact absurd rfl (hnone _ (List.mem_of_getElem? hcl))
  | taken hcl => exact absurd rfl (hnone _ hcl)
  | left hlt _ =>
    rw [queue_same hpush, hempty, pops, pops, hsame] at hlt
    exact absurd hlt (Nat.lt_irrefl _)

theorem Quiescent.ringState (h : Quiescent r producer consumer tr m) :
    RingState r producer consumer 0 [] tr m := by
  obtain ⟨m₀, cf, hp, hc, hrun, -, rfl⟩ := h
  obtain ⟨R, -, -, -, hi⟩ := Inductive.run (follows r producer consumer)
    (inv_inductive (start_getBuf hp hc)) hrun
  exact hi.toRingState

theorem Quiescent.counters (h : Quiescent r producer consumer tr m) :
    m.head = word (pops tr + (waiting tr).length) ∧ m.tail = word (pops tr) ∧
      (waiting tr).length ≤ r.cap := by
  have hs := h.ringState
  have hle := hs.le
  have hroom := hs.room
  have hlen : pops tr + (waiting tr).length = (queue [] tr).length := by
    rw [waiting, List.length_drop]
    omega
  refine ⟨?_, ?_, by omega⟩
  · rw [hlen, hs.head, Nat.zero_add]
  · rw [hs.tail, Nat.zero_add]

/-- The state of a quiet ring is one to start from, if the new consumer's zero lies between its
counters. -/
theorem Quiescent.start (h : Quiescent r producer consumer tr m) (hne : fresh ≠ producer)
    (hzero : 0 - m.tail ≤ m.head - m.tail) :
    Start r producer fresh (pops tr) (waiting tr) (attach fresh m) := by
  obtain ⟨hhead, htail, hroom⟩ := h.counters
  have hle := h.ringState.le
  have hcap := r.cap_le
  have hwait : (waiting tr).length = (queue [] tr).length - pops tr := List.length_drop
  refine ⟨hhead, htail, hroom, ?_, ?_, ?_⟩
  · intro k e _ hk
    rw [waiting, List.getElem?_drop] at hk
    have := h.ringState.stored _ e (Nat.le_add_right ..) hk
    rwa [Nat.zero_add] at this
  · obtain ⟨D, hD, hDp, hDc⟩ := h.ringState.cacheTail
    refine ⟨D, ?_, by omega, by omega⟩
    show Function.update m.localTail fresh 0 producer = word D
    rw [Function.update_of_ne hne.symm]
    exact hD
  · have hwin : (0 - m.tail).toNat ≤ (m.head - m.tail).toNat := hzero
    have hsub : (word (pops tr + (waiting tr).length) - word (pops tr)).toNat = _ :=
      toNat_word_sub (Nat.le_add_right ..) (by omega)
    rw [hhead, htail] at hwin
    refine ⟨pops tr + (0 - word (pops tr)).toNat, ?_, Nat.le_add_right .., by omega⟩
    show Function.update m.localHead fresh 0 fresh = _
    rw [Function.update_self, word_add_toNat_sub]

/-! ## A cache outside the window -/

theorem log_pop_stale (h : m.localHead t ≠ m.tail) :
    (body r (.pop 0)).log (exec t) m = [⟨.loadTail, m.tail⟩, ⟨.getLocalHead, m.localHead t⟩,
      ⟨.storeTail (m.tail + 1), ()⟩] ∧
    ((body r (.pop 0)).run (exec t) m).2 = { m with tail := m.tail + 1 } := by
  simp [body, popSpscRingBuf, popEmpty, copyFrom, Prog.log, exec, h]

theorem pops_stale (n id : Nat) (hne : ∀ i < n, m.tail + word i ≠ m.localHead t) :
    pops (seqTrace exec (body r) (List.replicate n (t, .pop 0)) id m) = n ∧
      pushClaims (seqTrace exec (body r) (List.replicate n (t, .pop 0)) id m) = [] := by
  induction n generalizing m id with
  | zero => exact ⟨rfl, rfl⟩
  | succ n ih =>
    have h₀ : m.localHead t ≠ m.tail := by simpa using (hne 0 (Nat.succ_pos n)).symm
    obtain ⟨hlog, hrun⟩ := log_pop_stale (r := r) h₀
    have ih' := ih (m := { m with tail := m.tail + 1 }) (id + 1) fun i hi => by
      have := hne (i + 1) (Nat.succ_lt_succ hi)
      rwa [← word_succ, BitVec.add_comm (word i), ← BitVec.add_assoc] at this
    rw [List.replicate_succ, seqTrace, hlog, hrun]
    constructor
    · rw [pops, popClaims, claims_append, List.length_append]
      have hlast : (claims putTail (seqTrace exec (body r) (List.replicate n (t, .pop 0)) (id + 1)
          { m with tail := m.tail + 1 })).length = n := ih'.1
      rw [hlast, Nat.add_comm n 1]
      rfl
    · rw [pushClaims, claims_append]
      have hlast : claims putHead (seqTrace exec (body r) (List.replicate n (t, .pop 0)) (id + 1)
          { m with tail := m.tail + 1 }) = [] := ih'.2
      rw [hlast, List.append_nil]
      rfl

/-- A consumer whose cache is not between the counters runs past the head. -/
theorem not_delivers (hhead : m.head = word (p + q₀.length)) (htail : m.tail = word p)
    (hroom : q₀.length ≤ r.cap) (hzero : ¬ m.localHead consumer - m.tail ≤ m.head - m.tail) :
    ∃ tr cf, Run (sys r producer consumer) (.start m) tr cf ∧
      ¬ Delivers r p q₀ tr cf.shared := by
  have hcap := r.cap_le
  have hsub : (word (p + q₀.length) - word p).toNat = p + q₀.length - p :=
    toNat_word_sub (Nat.le_add_right p q₀.length) (by omega)
  have hfar : q₀.length < (m.localHead consumer - word p).toNat := by
    rw [hhead, htail] at hzero
    have : ¬ (m.localHead consumer - word p).toNat ≤ (word (p + q₀.length) - word p).toNat := hzero
    omega
  -- None of the tails on the way is the cached value.
  have hne : ∀ i < q₀.length + 1, m.tail + word i ≠ m.localHead consumer := by
    intro i hi he
    rw [htail] at he
    rw [← he, BitVec.add_comm, BitVec.add_sub_cancel] at hfar
    have : i % 2 ^ 64 = i := Nat.mod_eq_of_lt (by omega)
    have : (word i).toNat = i % 2 ^ 64 := toNat_word i
    omega
  obtain ⟨hpops, hpush⟩ := pops_stale (r := r) (q₀.length + 1) 0 hne
  refine ⟨_, _, Run.seq (List.replicate (q₀.length + 1) (consumer, .pop 0)) ?_ 0 m, fun h => ?_⟩
  · intro x hx
    rw [List.eq_of_mem_replicate hx]
    rfl
  · have hle := h.le
    rw [hpops, queue, hpush] at hle
    simp at hle

theorem Quiescent.not_takeOver (h : Quiescent r producer consumer tr m)
    (hzero : ¬ 0 - m.tail ≤ m.head - m.tail) :
    ∃ tr' cf, Run (sys r producer fresh) (.start (attach fresh m)) tr' cf ∧
      ¬ Delivers r (pops tr) (waiting tr) tr' cf.shared := by
  obtain ⟨hhead, htail, hroom⟩ := h.counters
  have hcache : (attach fresh m).localHead fresh = 0 := Function.update_self ..
  exact not_delivers hhead htail hroom (hcache ▸ hzero)

/-! ## When a consumer can be replaced -/

/-- **A new consumer does what the old one would have done exactly if zero is one of the counter
values from the tail to the head.** -/
theorem takeOver_iff (h : Quiescent r producer consumer tr m) (hne : fresh ≠ producer) :
    (∀ tr' cf, Run (sys r producer fresh) (.start (attach fresh m)) tr' cf →
      Delivers r (pops tr) (waiting tr) tr' cf.shared) ↔ 0 - m.tail ≤ m.head - m.tail := by
  constructor
  · intro hgood
    by_contra hzero
    obtain ⟨tr', cf, hrun, hbad⟩ := h.not_takeOver hzero
    exact hbad (hgood tr' cf hrun)
  · intro hzero tr' cf hrun
    exact (h.start hne hzero).delivers hrun

/-- Thread `true` pushes one element and thread `false` pops it. -/
def pushThenPop : List (Bool × Call tinyRing.objSize) := [(true, .push [7]), (false, .pop 1)]

theorem quiescent_pushThenPop :
    Quiescent tinyRing true false
      (seqTrace exec (body tinyRing) pushThenPop 0 (getBuf tinyRing .noSlot .zero))
      (seqState exec (body tinyRing) pushThenPop (getBuf tinyRing .noSlot .zero)) :=
  ⟨.zero, _, rfl, rfl, Run.seq pushThenPop (by decide) 0 _, fun _ => rfl, rfl⟩

theorem takeOver_iff_pushThenPop :
    (∀ tr' cf, Run (sys tinyRing true false) (.start (attach false
        (seqState exec (body tinyRing) pushThenPop (getBuf tinyRing .noSlot .zero)))) tr' cf →
      Delivers tinyRing
        (pops (seqTrace exec (body tinyRing) pushThenPop 0 (getBuf tinyRing .noSlot .zero)))
        (waiting (seqTrace exec (body tinyRing) pushThenPop 0 (getBuf tinyRing .noSlot .zero)))
        tr' cf.shared) ↔
      0 - (seqState exec (body tinyRing) pushThenPop (getBuf tinyRing .noSlot .zero)).tail ≤
        (seqState exec (body tinyRing) pushThenPop (getBuf tinyRing .noSlot .zero)).head -
          (seqState exec (body tinyRing) pushThenPop (getBuf tinyRing .noSlot .zero)).tail :=
  takeOver_iff quiescent_pushThenPop (by decide)

/-- A new consumer cannot replace one that has popped an element. -/
theorem takeOver_stale :
    ¬ ∀ tr m, Quiescent tinyRing true false tr m →
      ∀ tr' cf, Run (sys tinyRing true false) (.start (attach false m)) tr' cf →
        Delivers tinyRing (pops tr) (waiting tr) tr' cf.shared := by
  intro h
  obtain ⟨tr', cf, hrun, hbad⟩ := quiescent_pushThenPop.not_takeOver (by decide)
  exact hbad (h _ _ quiescent_pushThenPop tr' cf hrun)

end Spsc

end RingBuf
