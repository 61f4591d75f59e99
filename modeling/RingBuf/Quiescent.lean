import RingBuf.Mpmc.Alone
import RingBuf.Mpmc.Fifo
import RingBuf.Mpsc.Alone
import RingBuf.Mpsc.Cache
import RingBuf.Window

/-!
# A ring at rest

Whatever a run has done, when no call is in progress the slot words are those of the window
between the counters, and a call that then runs alone answers by the number of waiting elements
only (`quiescent_answers`). For the Mpsc kind this needs a consumer thread that uses no other
ring.
-/

namespace RingBuf

open Conc Word LawfulWord

variable {Tid : Type} [DecidableEq Tid] {r : Ring SizeT} {m m₀ : Mem SizeT Tid} {t t₀ : Tid}

/-! ## Mpmc -/

namespace Mpmc

/-- The slot words are those of the window, and a call alone answers by the counters only. -/
structure Answers (r : Ring SizeT) (m : Mem SizeT Tid) : Prop where
  tail_le : toNat m.tail ≤ toNat m.head
  head_le : toNat m.head ≤ toNat m.tail + r.cap
  full_slot : ∀ p, toNat m.tail ≤ p → p < toNat m.head → toNat (m.slot (r.index p)) = p + 1
  free_slot : ∀ p, toNat m.head ≤ p → p < toNat m.tail + r.cap → toNat (m.slot (r.index p)) = p
  push : ∀ (t : Tid) args, args.length ≤ r.objSize → (body r (.push args)).run (exec t) m =
    if toNat m.head - toNat m.tail < r.cap then (⟨toNat m.head, []⟩, filled r m args)
    else (⟨ringbufFull, []⟩, m)
  pop : ∀ (t : Tid) size, size ≤ r.objSize → (body r (.pop size)).run (exec t) m =
    if toNat m.tail < toNat m.head then
      (⟨toNat m.tail, (List.range' (r.base (toNat m.tail)) size).map m.buffer⟩, drained r m)
    else (⟨ringbufEmpty, []⟩, m)
  popWCb : ∀ (t : Tid) cb, (body r (.popWCb cb)).run (exec t) m =
    if toNat m.tail < toNat m.head then
      (⟨cb.answer m.buffer (r.base (toNat m.tail)), []⟩, drained r m)
    else (⟨ringbufEmpty, []⟩, m)

variable {tr : List (Ev SizeT Tid r.objSize)}

omit [DecidableEq Tid] in
theorem full_slot_of_idle (hs : SlotInv r tr m fun _ => none) {p : Nat} (hp : toNat m.tail ≤ p)
    (hp' : p < toNat m.head) : toNat (m.slot (r.index p)) = p + 1 :=
  hs.inv.full_of_ne hp hp' fun _ h => nomatch h

omit [DecidableEq Tid] in
theorem free_slot_of_idle (hs : SlotInv r tr m fun _ => none) {p : Nat} (hp : toNat m.head ≤ p)
    (hp' : p < toNat m.tail + r.cap) : toNat (m.slot (r.index p)) = p :=
  (hs.inv.free p hp hp').resolve_right fun ⟨_, _, h, _⟩ => nomatch h

omit [DecidableEq Tid] in
theorem dif_head_of_idle (hs : SlotInv r tr m fun _ => none) :
    dif (headSeq r m) m.head =
      if toNat m.head - toNat m.tail < r.cap then 0 else 1 - (r.cap : Int) := by
  have hcap := r.cap_le
  have hcap' := r.two_le_cap
  have hle : toNat m.tail ≤ toNat m.head := hs.inv.tail_le
  have hroom : toNat m.head ≤ toNat m.tail + r.cap := hs.inv.head_le
  rw [headSeq, r.toNat_and_mask]
  by_cases hlt : toNat m.head - toNat m.tail < r.cap
  · have hseq := free_slot_of_idle hs (Nat.le_refl (toNat m.head)) (by omega)
    rw [if_pos hlt]
    exact dif_eq_zero.2 (toNat_inj hseq)
  · have hhead : toNat m.head = toNat m.tail + r.cap := by omega
    -- The slot of the head is that of the tail, one lap before.
    have hindex : r.index (toNat m.head) = r.index (toNat m.tail) := mod_eq_of_add hhead.symm
    have hseq := full_slot_of_idle hs (Nat.le_refl (toNat m.tail)) (by omega)
    rw [if_neg hlt, hindex, dif_eq_sub (by omega) (by omega), hseq]
    omega

omit [DecidableEq Tid] in
theorem dif_tail_of_idle (hs : SlotInv r tr m fun _ => none) (hb : NoOverflow r tr) :
    dif (tailSeq r m) (m.tail + 1) = if toNat m.tail < toNat m.head then 0 else -1 := by
  have hcap := r.two_le_cap
  have hle : toNat m.tail ≤ toNat m.head := hs.inv.tail_le
  have hbig : Fits SizeT (toNat m.head + r.cap) := by
    rw [← hs.head.length]
    exact hb
  have hsucc : toNat (m.tail + 1) = toNat m.tail + 1 := toNat_succ hle (by omega) hbig
  rw [tailSeq, r.toNat_and_mask]
  by_cases hlt : toNat m.tail < toNat m.head
  · have hseq := full_slot_of_idle hs (Nat.le_refl (toNat m.tail)) hlt
    rw [if_pos hlt]
    exact dif_eq_zero.2 (toNat_inj (hseq.trans hsucc.symm))
  · have hseq := free_slot_of_idle hs (p := toNat m.tail) (by omega) (by omega)
    rw [if_neg hlt, dif_eq_sub (by omega) (by omega), hseq, hsucc]
    omega

theorem answers_of_idle (hs : SlotInv r tr m fun _ => none)
    (hlt : (pushClaims tr).length < 2 ^ 63) :
    Answers r m where
  tail_le := hs.inv.tail_le
  head_le := hs.inv.head_le
  full_slot _ hp hp' := full_slot_of_idle hs hp hp'
  free_slot _ hp hp' := free_slot_of_idle hs hp hp'
  push t args hlen := by
    have hcap := r.two_le_cap
    have hhead : toNat m.head < 2 ^ 63 := by
      rw [← hs.head.length]
      exact hlt
    show (pushMpmcRingBuf r args >>= _).run (exec t) m = _
    rw [Prog.run_bind, run_push hlen, dif_head_of_idle hs]
    by_cases hroom : toNat m.head - toNat m.tail < r.cap
    · rw [if_pos hroom, if_pos hroom, if_neg (by decide), if_neg (by decide), toSsize_of_lt hhead]
      rfl
    · rw [if_neg hroom, if_neg hroom, if_neg (by omega), if_pos (by omega)]
      rfl
  pop t size hlen := by
    have htail : toNat m.tail < 2 ^ 63 := by
      refine Nat.lt_of_le_of_lt hs.inv.tail_le ?_
      show toNat m.head < 2 ^ 63
      rw [← hs.head.length]
      exact hlt
    show (popMpmcRingBuf r size >>= _).run (exec t) m = _
    rw [Prog.run_bind, run_pop hlen, dif_tail_of_idle hs (noOverflow_of_lt hlt)]
    by_cases hlt : toNat m.tail < toNat m.head
    · rw [if_pos hlt, if_pos hlt, if_neg (by decide), if_neg (by decide), toSsize_of_lt htail,
        r.addr_and_mask]
      rfl
    · rw [if_neg hlt, if_neg hlt, if_neg (by decide), if_pos (by decide)]
      rfl
  popWCb t cb := by
    show (popWCbMpmcRingBuf r cb >>= _).run (exec t) m = _
    rw [Prog.run_bind, run_popWCb, dif_tail_of_idle hs (noOverflow_of_lt hlt)]
    by_cases hlt : toNat m.tail < toNat m.head
    · rw [if_pos hlt, if_pos hlt, if_neg (by decide), if_neg (by decide), r.addr_and_mask]
      rfl
    · rw [if_neg hlt, if_neg hlt, if_neg (by decide), if_pos (by decide)]
      rfl

end Mpmc

/-! ## Mpsc -/

namespace Mpsc

/-- The status words are those of the window, and a call alone, a pop being one of the consumer
`t₀`, answers by the counters only. -/
structure Answers (r : Ring SizeT) (t₀ : Tid) (m : Mem SizeT Tid) : Prop where
  tail_le : toNat m.tail ≤ toNat m.head
  head_le : toNat m.head ≤ toNat m.tail + r.cap
  full_slot : ∀ p, toNat m.tail ≤ p → p < toNat m.head → m.slot (r.index p) = slotValid
  free_slot : ∀ p, toNat m.head ≤ p → p < toNat m.tail + r.cap → m.slot (r.index p) = slotEmpty
  push : ∀ (t : Tid) args, args.length ≤ r.objSize → (body r (.push args)).run (exec t) m =
    if toNat m.head - toNat m.tail < r.cap then (⟨toNat m.head, []⟩, filled r m args)
    else (⟨ringbufFull, []⟩, m)
  pop : ∀ size, size ≤ r.objSize → (body r (.pop none size)).run (exec t₀) m =
    if toNat m.tail < toNat m.head then
      (⟨toNat m.tail, (List.range' (r.base (toNat m.tail)) size).map m.buffer⟩,
        givenBack r (tested t₀ m))
    else (⟨ringbufEmpty, []⟩, tested t₀ m)
  popWCb : ∀ cb, (body r (.popWCb none cb)).run (exec t₀) m =
    if toNat m.tail < toNat m.head then
      (⟨cb.answer m.buffer (r.base (toNat m.tail)), []⟩, givenBack r (tested t₀ m))
    else (⟨ringbufEmpty, []⟩, tested t₀ m)

variable {tr : List (Ev Tid r.objSize)}

omit [DecidableEq Tid] in
theorem full_slot_of_idle (hs : SlotInv r tr m fun _ => none) {p : Nat} (hp : toNat m.tail ≤ p)
    (hp' : p < toNat m.head) : m.slot (r.index p) = slotValid := by
  have hnone : ∀ {o : Option Nat}, o = none → o ≠ some p := by
    intro o ho
    rw [ho]
    exact nofun
  rcases hs.inv.full p hp hp' with h | ⟨t, h⟩ | ⟨t, h⟩
  · exact of_decide_eq_true h
  · exact absurd h (hnone rfl)
  · exact absurd h (hnone rfl)

omit [DecidableEq Tid] in
theorem free_slot_of_idle (hs : SlotInv r tr m fun _ => none) {p : Nat} (hp : toNat m.head ≤ p)
    (hp' : p < toNat m.tail + r.cap) : m.slot (r.index p) = slotEmpty :=
  (hs.word _ (r.index_lt p)).resolve_right (of_decide_eq_false (hs.inv.free p hp hp'))

omit [DecidableEq Tid] in
theorem full_iff_of_idle (hs : SlotInv r tr m fun _ => none) :
    m.head - m.tail ≥ r.objNum ↔ ¬ toNat m.head - toNat m.tail < r.cap := by
  have hle : toNat m.tail ≤ toNat m.head := hs.inv.tail_le
  have hroom : toNat m.head ≤ toNat m.tail + r.cap := hs.inv.head_le
  have hfull := r.full_iff hle hroom
  rw [word_toNat, word_toNat] at hfull
  rw [hfull]
  omega

omit [DecidableEq Tid] in
theorem empty_iff_of_cached {R : MRoles Tid r.objSize} (hc : Cached t₀ m R) :
    testedHead t₀ m = m.tail ↔ ¬ toNat m.tail < toNat m.head := by
  have hle := hc.tail_le
  have hle' := hc.le_head
  unfold testedHead
  by_cases h : m.localHead t₀ = m.tail
  · rw [if_pos h]
    constructor
    · intro hhead
      rw [hhead]
      exact Nat.lt_irrefl _
    · intro hlt
      rw [h] at hle'
      exact BitVec.eq_of_toNat_eq (Nat.le_antisymm (Nat.not_lt.1 hlt) hle')
  · have hne : toNat m.tail ≠ toNat (m.localHead t₀) := fun he => h (BitVec.eq_of_toNat_eq he.symm)
    rw [if_neg h]
    exact iff_of_false h (by omega)

omit [DecidableEq Tid] in
/-- The status that a pop alone finds. -/
theorem tailStat_of_idle (hs : SlotInv r tr m fun _ => none)
    (hlt : toNat m.tail < toNat m.head) : ¬ tailStat r m &&& slotEmpty ≠ 0 := by
  have hvalid := full_slot_of_idle hs (Nat.le_refl (toNat m.tail)) hlt
  rw [tailStat, tailSlot, r.toNat_and_mask, hvalid]
  decide

theorem answers_of_idle (hs : SlotInv r tr m fun _ => none) (hlt : Bounded tr)
    (hc : Cached t₀ m fun _ : Tid => (none : Option (Active (Call r.objSize) (Role r.objSize)))) :
    Answers r t₀ m where
  tail_le := hs.inv.tail_le
  head_le := hs.inv.head_le
  full_slot _ hp hp' := full_slot_of_idle hs hp hp'
  free_slot _ hp hp' := free_slot_of_idle hs hp hp'
  push t args hlen := by
    have hhead : toNat m.head < 2 ^ 63 := by
      rw [← hs.head.length]
      exact hlt
    show (pushMpscRingBuf r args >>= _).run (exec t) m = _
    rw [Prog.run_bind, run_push hlen]
    by_cases hroom : toNat m.head - toNat m.tail < r.cap
    · rw [if_pos hroom, if_neg fun h => (full_iff_of_idle hs).1 h hroom, toSsize_of_lt hhead]
      rfl
    · rw [if_neg hroom, if_pos ((full_iff_of_idle hs).2 hroom)]
      rfl
  pop size hlen := by
    have htail : toNat m.tail < 2 ^ 63 := by
      refine Nat.lt_of_le_of_lt hs.inv.tail_le ?_
      show toNat m.head < 2 ^ 63
      rw [← hs.head.length]
      exact hlt
    show (popMpscRingBuf r size >>= _).run (exec t₀) m = _
    rw [Prog.run_bind, run_pop hlen]
    by_cases hlt : toNat m.tail < toNat m.head
    · rw [if_pos hlt, if_neg fun h => (empty_iff_of_cached hc).1 h hlt,
        if_neg (tailStat_of_idle hs hlt), toSsize_of_lt htail, r.addr_and_mask]
      rfl
    · rw [if_neg hlt, if_pos ((empty_iff_of_cached hc).2 hlt)]
      rfl
  popWCb cb := by
    show (popWCbMpscRingBuf r cb >>= _).run (exec t₀) m = _
    rw [Prog.run_bind, run_popWCb]
    by_cases hlt : toNat m.tail < toNat m.head
    · rw [if_pos hlt, if_neg fun h => (empty_iff_of_cached hc).1 h hlt,
        if_neg (tailStat_of_idle hs hlt), r.addr_and_mask]
      rfl
    · rw [if_neg hlt, if_pos ((empty_iff_of_cached hc).2 hlt)]
      rfl

end Mpsc

/-! ## After any run -/

/-- **A ring at rest answers exactly**: after any run of fewer than `2 ^ 63` pushes that leaves no
call in progress, a push succeeds if there is room and is told full otherwise, a pop succeeds if
an element waits and is told empty otherwise. -/
theorem quiescent_answers (r : Ring SizeT) (m₀ : Mem SizeT Tid) (t₀ : Tid) :
    (∀ tr c, Run (Mpmc.sys r Tid) (.start (getBuf r .mpmcSlot m₀)) tr c →
      (Mpmc.pushClaims tr).length < 2 ^ 63 → (∀ t, c.thread t = .idle) →
      Mpmc.Answers r c.shared) ∧
    ∀ tr c, m₀.localHead t₀ = 0 → Run (Mpsc.sys r Tid) (.start (getBuf r .mpscSlot m₀)) tr c →
      Mpsc.Own t₀ tr → (Mpsc.pushClaims tr).length < 2 ^ 63 → (∀ t, c.thread t = .idle) →
      Mpsc.Answers r t₀ c.shared := by
  constructor
  · intro tr c h hlt hidle
    have hs := Inductive.idle (Mpmc.follows r Tid)
      (Mpmc.slotInv_inductive (Mpmc.fresh_getBuf m₀)) h hidle
    exact Mpmc.answers_of_idle (hs (Mpmc.noOverflow_of_lt hlt)) hlt
  · intro tr c hlocal h hown hlt hidle
    have hf : Mpsc.Fresh r (getBuf r .mpscSlot m₀) := Mpsc.fresh_getBuf m₀
    obtain ⟨hg, hc⟩ := Inductive.idle
      ((Mpsc.follows r Tid).prod (Mpsc.guest_follows r Tid))
      ((Mpsc.guested_inductive hf).and (Mpsc.cached_inductive hf hlocal)) h hidle
    exact Mpsc.answers_of_idle (hg.slots hlt) hlt (hc ⟨hlt, hown⟩)

/-- Two pushes and a pop. -/
def Mpmc.pushPushPop : List (Bool × Mpmc.Call tinyRing.objSize) :=
  [(true, .push [7]), (true, .push [8]), (false, .pop 1)]

/-- Two pushes and a pop. -/
def Mpsc.pushPushPop : List (Bool × Mpsc.Call tinyRing.objSize) :=
  [(true, .push [7]), (true, .push [8]), (false, .pop none 1)]

theorem quiescent_answers_pushPushPop :
    Mpmc.Answers tinyRing
      (seqState exec (Mpmc.body tinyRing) Mpmc.pushPushPop (getBuf tinyRing .mpmcSlot .zero)) ∧
    Mpsc.Answers tinyRing false
      (seqState exec (Mpsc.body tinyRing) Mpsc.pushPushPop (getBuf tinyRing .mpscSlot .zero)) := by
  have h := quiescent_answers tinyRing (.zero : Mem SizeT Bool) false
  refine ⟨h.1 _ _ (Run.seq Mpmc.pushPushPop (fun _ _ => trivial) 0 _) (by decide) fun _ => rfl,
    h.2 _ _ rfl (Run.seq Mpsc.pushPushPop (fun _ _ _ _ _ h => nomatch h) 0 _) ?_ (by decide)
      fun _ => rfl⟩
  intro t id c hc hpops
  have hmem : (t, c) ∈ Mpsc.pushPushPop := mem_of_call_mem_seqTrace hc
  simp only [Mpsc.pushPushPop, List.mem_cons, List.not_mem_nil, or_false, Prod.mk.injEq] at hmem
  rcases hmem with ⟨-, rfl⟩ | ⟨-, rfl⟩ | ⟨rfl, rfl⟩
  · cases hpops
  · cases hpops
  · exact ⟨rfl, rfl⟩

end RingBuf
