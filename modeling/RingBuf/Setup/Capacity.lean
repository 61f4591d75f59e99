import RingBuf.Setup.Code
import Mathlib.Data.Set.Function

/-!
# The capacity test and the mask

Both constructors refuse a capacity that is not a power of two. For those they accept, masking a
counter with `objNum - 1` numbers the slots of every window of `objNum` consecutive counters,
wherever the window starts and whether or not it crosses `2 ^ 64` (`masked_counters`).
-/

namespace RingBuf

open Conc Word LawfulWord

/-! ## Masking with a power of two -/

section Mask

variable {n : SizeT} {k : Nat}

theorem toNat_pred (hn : n.toNat = 2 ^ k) : toNat (n - 1) + 1 = 2 ^ k := by
  have hpos : 1 ≤ 2 ^ k := Nat.one_le_two_pow
  show (n - 1).toNat + 1 = 2 ^ k
  rw [BitVec.toNat_sub_of_le (by show 1 ≤ n.toNat; omega)]
  show n.toNat - 1 + 1 = 2 ^ k
  omega

/-- Masking is the remainder. -/
theorem toNat_and_pred (hn : n.toNat = 2 ^ k) (p : SizeT) :
    (p &&& (n - 1)).toNat = p.toNat % n.toNat := by
  rw [hn]
  exact toNat_and (toNat_pred hn)

theorem toNat_add_mod (hn : n.toNat = 2 ^ k) (c : SizeT) (i : Nat) :
    (c + BitVec.ofNat 64 i).toNat % n.toNat = (c.toNat + i) % n.toNat := by
  have hk : k ≤ 64 := by
    have hlt : n.toNat < 2 ^ 64 := n.isLt
    rw [hn] at hlt
    exact ((Nat.pow_lt_pow_iff_right (by decide)).1 hlt).le
  have hdvd : n.toNat ∣ 2 ^ 64 := hn ▸ pow_dvd_pow 2 hk
  rw [BitVec.toNat_add, BitVec.toNat_ofNat, Nat.mod_mod_of_dvd _ hdvd, Nat.add_mod,
    Nat.mod_mod_of_dvd _ hdvd, ← Nat.add_mod]

/-- The counters `c, c + 1, …, c + (n - 1)`. -/
def window (c n : SizeT) : Set SizeT := {p | ∃ i, i < n.toNat ∧ p = c + BitVec.ofNat 64 i}

theorem mask_mapsTo (hn : n.toNat = 2 ^ k) (c : SizeT) :
    Set.MapsTo (· &&& (n - 1)) (window c n) {i | i.toNat < n.toNat} := by
  intro p _
  show (p &&& (n - 1)).toNat < n.toNat
  rw [toNat_and_pred hn]
  apply Nat.mod_lt
  rw [hn]
  exact Nat.two_pow_pos k

theorem mask_injOn (hn : n.toNat = 2 ^ k) (c : SizeT) :
    Set.InjOn (· &&& (n - 1)) (window c n) := by
  rintro _ ⟨i, hi, rfl⟩ _ ⟨j, hj, rfl⟩ h
  have hmod := congrArg BitVec.toNat h
  simp only [toNat_and_pred hn, toNat_add_mod hn] at hmod
  have hij : c.toNat + i = c.toNat + j := eq_of_mod_eq hmod (by omega) (by omega)
  rw [Nat.add_left_cancel hij]

theorem mask_surjOn (hn : n.toNat = 2 ^ k) (c : SizeT) :
    Set.SurjOn (· &&& (n - 1)) (window c n) {i | i.toNat < n.toNat} := by
  intro x hx
  have hx' : x.toNat < n.toNat := hx
  have hpos : 0 < n.toNat := by omega
  -- The first counter from `c` on with remainder `x`.
  have hc : c.toNat % n.toNat < n.toNat := Nat.mod_lt _ hpos
  have hsum : c.toNat + (x.toNat + (n.toNat - c.toNat % n.toNat)) =
      x.toNat + n.toNat * (c.toNat / n.toNat + 1) := by
    have hdiv := Nat.div_add_mod c.toNat n.toNat
    rw [Nat.mul_add, Nat.mul_one]
    omega
  refine ⟨c + BitVec.ofNat 64 ((x.toNat + (n.toNat - c.toNat % n.toNat)) % n.toNat),
    ⟨_, Nat.mod_lt _ hpos, rfl⟩, BitVec.eq_of_toNat_eq ?_⟩
  simp only [toNat_and_pred hn, toNat_add_mod hn, Nat.add_mod_mod]
  rw [hsum, Nat.add_mul_mod_self_left, Nat.mod_eq_of_lt hx']

theorem mask_add (hn : n.toNat = 2 ^ k) (p : SizeT) : (p + n) &&& (n - 1) = p &&& (n - 1) := by
  have hadd := toNat_add_mod hn p n.toNat
  rw [BitVec.ofNat_toNat, BitVec.setWidth_eq, Nat.add_mod_right] at hadd
  apply BitVec.eq_of_toNat_eq
  rw [toNat_and_pred hn, toNat_and_pred hn, hadd]

end Mask

/-! ## The test -/

/-- The test accepts every power of two from `2` on. -/
theorem capacity_of_pow {objNum : SizeT} {k : Nat} (hk : 1 ≤ k) (hn : objNum.toNat = 2 ^ k) :
    capacityWrong objNum = false := by
  have htwo : 2 ≤ objNum.toNat := by
    calc 2 = 2 ^ 1 := rfl
      _ ≤ 2 ^ k := Nat.pow_le_pow_right (by decide) hk
      _ = objNum.toNat := hn.symm
  have hand : objNum &&& (objNum - 1) = 0 := by
    apply BitVec.eq_of_toNat_eq
    rw [toNat_and_pred hn, Nat.mod_self]
    rfl
  simp only [capacityWrong, hand, Bool.or_eq_false_iff, decide_eq_false_iff_not, bne_self_eq_false,
    and_true, BitVec.not_lt]
  exact htwo

theorem capacity_iff (objNum : SizeT) :
    capacityWrong objNum = false ↔ ∃ k, 1 ≤ k ∧ k ≤ 63 ∧ objNum.toNat = 2 ^ k := by
  constructor
  · intro h
    obtain ⟨k, hk, hn⟩ := exists_pow_of_capacity h
    have hn' : objNum.toNat = 2 ^ k := hn
    have hlt : objNum.toNat < 2 ^ 64 := objNum.isLt
    rw [hn'] at hlt
    have hk' : k < 64 := (Nat.pow_lt_pow_iff_right (by decide)).1 hlt
    exact ⟨k, hk, by omega, hn'⟩
  · intro ⟨k, hk, _, hn⟩
    exact capacity_of_pow hk hn

namespace Setup

variable {Path : Type}

/-- What a constructor does with a capacity it refuses. -/
def refuseCapacity : SysProg Path (Option Addr) := do
  setErrno ringbufCapacityWrong
  pure none

theorem ringMemory_ne (hugeSize : SizeT → SizeT) (totalSize : SizeT) (shmPath : Option Path)
    (prot flag : CInt) (f : Option (Addr × CInt) → SysProg Path (Option Addr)) :
    ringMemory hugeSize totalSize shmPath prot flag >>= f ≠ refuseCapacity := by
  intro h
  unfold ringMemory getBufMalloc getBufShm at h
  split_ifs at h
  · injection h with ho
    injection ho with he
    cases he
  · injection h with ho
    cases ho
  · injection h with ho
    injection ho with he
    cases he
  all_goals
    cases shmPath with
    | none =>
      injection h with ho
      cases ho
    | some path =>
      injection h with ho
      cases ho

/-- A constructor refuses the capacity exactly when the test fails. -/
theorem construct_ne (hugeSize : SizeT → SizeT) (a : Args Path) (c : Ctor) :
    construct hugeSize a c ≠ refuseCapacity ↔ capacityWrong a.objNum = false := by
  cases hcap : capacityWrong a.objNum with
  | true =>
    cases c with
    | ring useSlot => simp [construct, getBuf, hcap, refuseCapacity]
    | block => simp [construct, getBlockBuf, hcap, refuseCapacity]
  | false =>
    simp only [iff_true]
    cases c with
    | ring useSlot =>
      simp only [construct, getBuf, hcap, Bool.false_eq_true, if_false]
      cases hslot : useSlotNa useSlot with
      | true =>
        intro h
        injection h with ho
        injection ho with he
        cases he
      | false => exact ringMemory_ne hugeSize _ _ _ _ _
    | block =>
      simp only [construct, getBlockBuf, hcap, Bool.false_eq_true, if_false]
      exact ringMemory_ne hugeSize _ _ _ _ _

/-- **Masked counters address the ring without collision.** A constructor gets past its capacity
test exactly for the powers of two from `2` to `2 ^ 63`; masking then maps every window of
`objNum` counters one to one onto the slot numbers, and counters `objNum` apart to one slot. -/
theorem masked_counters (hugeSize : SizeT → SizeT) (a : Args Path) (c : Ctor) :
    (construct hugeSize a c ≠ refuseCapacity ↔
      ∃ k, 1 ≤ k ∧ k ≤ 63 ∧ a.objNum.toNat = 2 ^ k) ∧
    (construct hugeSize a c ≠ refuseCapacity →
      (∀ first : SizeT, Set.BijOn (· &&& (a.objNum - 1)) (window first a.objNum)
        {i | i.toNat < a.objNum.toNat}) ∧
      ∀ p : SizeT, (p + a.objNum) &&& (a.objNum - 1) = p &&& (a.objNum - 1)) := by
  refine ⟨(construct_ne ..).trans (capacity_iff _), fun h => ?_⟩
  obtain ⟨k, -, -, hn⟩ := (capacity_iff _).1 ((construct_ne ..).1 h)
  exact ⟨fun first => ⟨mask_mapsTo hn first, mask_injOn hn first, mask_surjOn hn first⟩,
    mask_add hn⟩

/-- Four objects, and the window that starts two below `2 ^ 64`. -/
theorem masked_counters_wrap :
    Set.BijOn (· &&& 3) (window (-2) 4) {i : SizeT | i.toNat < 4} :=
  ((masked_counters id (⟨4, 8, none, mapMalloc, 0⟩ : Args Unit) .block).2
    ((construct_ne ..).2 rfl)).1 (-2)

end Setup

end RingBuf
