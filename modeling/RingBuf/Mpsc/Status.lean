import RingBuf.Mpsc.Alone

/-!
# Status words that no producer stores

A pop of the Mpsc ring past its empty test hands data out only from a slot that is marked valid,
and recovers from a slot that has neither mark, if and only if the slot has a mark
(`status_iff`): `SLOT_UNKNOWN` is zero, so the test for it never succeeds, and a slot with
neither mark is delivered like a valid one.
-/

namespace RingBuf

open Conc Word

namespace Mpsc

variable {Tid : Type} [DecidableEq Tid] {r : Ring SizeT} {t : Tid} {m : Mem SizeT Tid}

/-- `SLOT_EMPTY` or `SLOT_VALID` is set. -/
def Marked (stat : SizeT) : Prop := stat &&& (slotEmpty ||| slotValid) ≠ 0

instance (stat : SizeT) : Decidable (Marked stat) := inferInstanceAs (Decidable (_ ≠ _))

/-- What a pop by thread `t` alone makes of the status word it finds, where `rc` is the code it
returns. -/
structure Heeds {α : Type} (r : Ring SizeT) (t : Tid) (m : Mem SizeT Tid) (p : RingProg SizeT α)
    (rc : α → Int) : Prop where
  /-- Data is handed out only if `SLOT_VALID` is set and `SLOT_EMPTY` is not. -/
  valid : delivered t m p ≠ [] →
    tailStat r m &&& slotValid ≠ 0 ∧ tailStat r m &&& slotEmpty = 0
  /-- With neither set the slot is given up as unknown, and the next position can be popped. -/
  unknown : ¬ Marked (tailStat r m) →
    rc (p.run (exec t) m).1 = ringbufSlotStatUnknown ∧ delivered t m p = [] ∧
    (p.run (exec t) m).2.slot = Function.update m.slot (tailSlot r m) slotEmpty ∧
    (p.run (exec t) m).2.tail = m.tail + 1

/-! ## Marks -/

/-- The two marks are different bits. -/
theorem and_marks (stat : SizeT) :
    stat &&& (slotEmpty ||| slotValid) = (stat &&& slotEmpty) ||| (stat &&& slotValid) := by
  ext i
  simp only [BitVec.getElem_and, BitVec.getElem_or, Bool.and_or_distrib_left]

theorem marked_of_empty {stat : SizeT} (h : stat &&& slotEmpty ≠ 0) : Marked stat := by
  intro hand
  rw [and_marks] at hand
  exact h (BitVec.or_eq_zero_iff.1 hand).1

theorem valid_of_marked {stat : SizeT} (h : Marked stat) (hempty : ¬ stat &&& slotEmpty ≠ 0) :
    stat &&& slotValid ≠ 0 := by
  intro hvalid
  apply h
  rw [and_marks]
  exact BitVec.or_eq_zero_iff.2 ⟨not_not.1 hempty, hvalid⟩

/-! ## What is handed out -/

/-- The operations of a pop past its empty test: none hands data out before the slot's status is
known. -/
theorem delivered_pop {size : Nat} (hlen : size ≤ r.objSize) (hpast : testedHead t m ≠ m.tail) :
    delivered t m (popMpscRingBuf r size) =
      if tailStat r m &&& slotEmpty ≠ 0 then []
      else delivered t (tested t m) (memcpyFrom (r.addr (m.tail &&& r.mask)) size) := by
  unfold popMpscRingBuf
  rw [if_neg (Nat.not_lt.2 hlen)]
  show delivered t m (popEmpty m.tail >>= _) = _
  rw [delivered_bind, delivered_popEmpty, run_popEmpty, decide_eq_false hpast]
  show delivered t (tested t m) (ite (tailStat r m &&& slotEmpty ≠ 0) _ _) = _
  by_cases hstat : tailStat r m &&& slotEmpty ≠ 0
  · rw [if_pos hstat, if_pos hstat]
    rfl
  · have hunknown : ¬ tailStat r m &&& slotUnknown ≠ 0 := by simp [slotUnknown]
    rw [if_neg hstat, if_neg hstat]
    show delivered t (tested t m) (ite (tailStat r m &&& slotUnknown ≠ 0) _ _) = _
    rw [if_neg hunknown, delivered_bind]
    exact List.append_nil _

theorem delivered_popWCb (cb : Callback r.objSize) (hpast : testedHead t m ≠ m.tail) :
    delivered t m (popWCbMpscRingBuf r cb) =
      if tailStat r m &&& slotEmpty ≠ 0 then []
      else delivered t (tested t m) (callCb cb (some (r.addr (m.tail &&& r.mask)))) := by
  show delivered t m (popEmpty m.tail >>= _) = _
  rw [delivered_bind, delivered_popEmpty, run_popEmpty, decide_eq_false hpast]
  show delivered t (tested t m) (ite (tailStat r m &&& slotEmpty ≠ 0) _ _) = _
  by_cases hstat : tailStat r m &&& slotEmpty ≠ 0
  · rw [if_pos hstat, if_pos hstat]
    rfl
  · have hunknown : ¬ tailStat r m &&& slotUnknown ≠ 0 := by simp [slotUnknown]
    rw [if_neg hstat, if_neg hstat]
    show delivered t (tested t m) (ite (tailStat r m &&& slotUnknown ≠ 0) _ _) = _
    rw [if_neg hunknown, delivered_bind]
    exact List.append_nil _

/-- A callback that is invoked is handed the object. -/
theorem delivered_callCb {n : Nat} (cb : Callback n) (p : Option Nat) :
    delivered t m (callCb cb p) ≠ [] := by
  intro h
  cases h

/-! ## The two pops -/

theorem heeds_pop_iff {size : Nat} (hlen : size ≤ r.objSize) (hpast : testedHead t m ≠ m.tail) :
    Heeds r t m (popMpscRingBuf r size) (·.1) ↔
      Marked (tailStat r m) ∨ (size = 0 ∧ toSsize m.tail = ringbufSlotStatUnknown) := by
  have hrun := run_pop (t := t) (m := m) hlen
  have hdel := delivered_pop (t := t) (m := m) hlen hpast
  rw [if_neg hpast] at hrun
  by_cases hstat : tailStat r m &&& slotEmpty ≠ 0
  · rw [if_pos hstat] at hdel
    have hmarked := marked_of_empty hstat
    exact ⟨fun _ => .inl hmarked, fun _ => ⟨fun h => absurd hdel h, fun h => absurd hmarked h⟩⟩
  · rw [if_neg hstat] at hdel hrun
    by_cases hmarked : Marked (tailStat r m)
    · exact ⟨fun _ => .inl hmarked, fun _ => ⟨fun _ => ⟨valid_of_marked hmarked hstat,
        not_not.1 hstat⟩, fun h => absurd hmarked h⟩⟩
    · -- The slot has neither mark, and the pop goes on to copy.
      constructor
      · intro h
        obtain ⟨hrc, hnone, -, -⟩ := h.unknown hmarked
        rw [hdel, delivered_memcpyFrom] at hnone
        rw [hrun] at hrc
        exact .inr ⟨hnone, hrc⟩
      · intro h
        obtain ⟨hsize, htail⟩ := h.resolve_left hmarked
        have hnone : delivered t m (popMpscRingBuf r size) = [] := by
          rw [hdel, delivered_memcpyFrom]
          exact hsize
        refine ⟨fun h => absurd hnone h, fun _ => ⟨?_, hnone, ?_, ?_⟩⟩ <;> rw [hrun]
        · exact htail
        · rfl
        · rfl

theorem heeds_popWCb_iff (cb : Callback r.objSize) (hpast : testedHead t m ≠ m.tail) :
    Heeds r t m (popWCbMpscRingBuf r cb) (fun rc => rc) ↔ Marked (tailStat r m) := by
  have hdel := delivered_popWCb (t := t) (m := m) cb hpast
  constructor
  · intro h
    by_contra hmarked
    have hstat : ¬ tailStat r m &&& slotEmpty ≠ 0 := fun h => hmarked (marked_of_empty h)
    rw [if_neg hstat] at hdel
    obtain ⟨-, hnone, -, -⟩ := h.unknown hmarked
    exact delivered_callCb _ _ (hdel.symm.trans hnone)
  · intro hmarked
    refine ⟨fun hsome => ?_, fun h => absurd hmarked h⟩
    by_cases hstat : tailStat r m &&& slotEmpty ≠ 0
    · rw [if_pos hstat] at hdel
      exact absurd hdel hsome
    · exact ⟨valid_of_marked hmarked hstat, not_not.1 hstat⟩

/-- **A pop delivers only from slots marked valid** exactly if the slot has a mark; the one other
case is a pop of no bytes whose position reads as the code for an unknown status. -/
theorem status_iff (hpast : testedHead t m ≠ m.tail) :
    (∀ size ≤ r.objSize, Heeds r t m (popMpscRingBuf r size) (·.1) ↔
      Marked (tailStat r m) ∨ (size = 0 ∧ toSsize m.tail = ringbufSlotStatUnknown)) ∧
    ∀ cb : Callback r.objSize,
      Heeds r t m (popWCbMpscRingBuf r cb) (fun rc => rc) ↔ Marked (tailStat r m) :=
  ⟨fun _ hlen => heeds_pop_iff hlen hpast, fun cb => heeds_popWCb_iff cb hpast⟩

/-- A ring whose slots have not been initialised, and a `local_head` that another ring left. -/
def unmarked : Mem SizeT Bool := { Mem.zero with localHead := fun _ => 5 }

theorem status_iff_valid : Heeds tinyRing true { unmarked with slot := fun _ => slotValid }
    (popMpscRingBuf tinyRing 1) (·.1) :=
  ((status_iff (by decide)).1 1 (by decide)).2 (.inl (by decide))

/-- A pop delivers a byte that nobody pushed, from a slot with neither mark. -/
theorem status_ignored :
    testedHead true unmarked ≠ unmarked.tail ∧ ¬ Marked (tailStat tinyRing unmarked) ∧
    ¬ Heeds tinyRing true unmarked (popMpscRingBuf tinyRing 1) (·.1) ∧
    ((popMpscRingBuf tinyRing 1).run (exec true) unmarked).1 = (0, [0]) := by
  refine ⟨by decide, by decide, fun h => ?_, rfl⟩
  have hrc := (h.unknown (by decide)).1
  revert hrc
  decide

end Mpsc

end RingBuf
