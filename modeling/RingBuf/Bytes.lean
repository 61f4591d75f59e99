import Mathlib.Data.Nat.Bitwise
import Mathlib.Order.CompletePartialOrder
import Mathlib.Order.Interval.Set.Disjoint

/-!
# Bytes, words and areas of memory

A piece of memory is a function from offsets to bytes. A machine word takes a number of bytes,
the lowest first. An array of objects of equal size takes one strip of memory for each object.

* `load_store_self`, `load_store_of_disjoint`: a load finds what was stored, and what a store
  elsewhere left alone.
* `strip_disjoint`, `strip_subset`: the objects of an array lie apart, and within the array.
* `exists_strip_past`: if an array reaches a bound, so does one of its objects that starts
  before it.
* `toNat_and_not`: clearing the low bits of a word rounds it down.
-/

namespace Bytes

/-- A piece of memory. -/
abbrev Data := Nat → BitVec 8

/-- `d` after the first `n` bytes of `image` have been copied to `a`. -/
def blit (d : Data) (a n : Nat) (image : Data) : Data := fun b =>
  if a ≤ b ∧ b < a + n then image (b - a) else d b

/-- The bytes of a word. -/
def bytes {n : Nat} (w : BitVec (8 * n)) : Data := fun j => w.extractLsb' (8 * j) 8

/-- `d` after the `n` bytes of `w` have been stored at `a`. -/
def store {n : Nat} (d : Data) (a : Nat) (w : BitVec (8 * n)) : Data := blit d a n (bytes w)

/-- The word in the `n` bytes at `a`. -/
def load : (n : Nat) → Data → Nat → BitVec (8 * n)
  | 0, _, _ => 0
  | n + 1, d, a => load n d (a + 1) ++ d a

section Words

variable {n m : Nat} {d d' : Data} {a b : Nat}

theorem blit_of_mem {image : Data} (h : a ≤ b ∧ b < a + n) : blit d a n image b = image (b - a) :=
  if_pos h

theorem blit_of_not_mem {image : Data} (h : ¬(a ≤ b ∧ b < a + n)) : blit d a n image b = d b :=
  if_neg h

theorem getLsbD_load {j : Nat} (hj : j < 8 * n) :
    (load n d a).getLsbD j = (d (a + j / 8)).getLsbD (j % 8) := by
  induction n generalizing a j with
  | zero => omega
  | succ n ih =>
    show (load n d (a + 1) ++ d a).getLsbD j = _
    rw [BitVec.getLsbD_append]
    by_cases hlt : j < 8
    · rw [if_pos hlt, Nat.div_eq_of_lt hlt, Nat.mod_eq_of_lt hlt, Nat.add_zero]
    · rw [if_neg hlt, ih (by omega), show a + 1 + (j - 8) / 8 = a + j / 8 by omega,
        show (j - 8) % 8 = j % 8 by omega]

/-- A load depends on its bytes only. -/
theorem load_congr (h : ∀ b, a ≤ b → b < a + n → d b = d' b) : load n d a = load n d' a := by
  apply BitVec.eq_of_getLsbD_eq
  intro j hj
  rw [getLsbD_load hj, getLsbD_load hj, h (a + j / 8) (by omega) (by omega)]

theorem load_store_self (w : BitVec (8 * n)) : load n (store d a w) a = w := by
  apply BitVec.eq_of_getLsbD_eq
  intro j hj
  have hin : a ≤ a + j / 8 ∧ a + j / 8 < a + n := ⟨by omega, by omega⟩
  rw [getLsbD_load hj, store, blit_of_mem hin, bytes, BitVec.getLsbD_extractLsb',
    Nat.add_sub_cancel_left, Nat.div_add_mod]
  simp [Nat.mod_lt]

theorem load_blit_of_disjoint {image : Data} (h : a + n ≤ b ∨ b + m ≤ a) :
    load n (blit d b m image) a = load n d a :=
  load_congr fun _ h₁ h₂ => blit_of_not_mem (by omega)

theorem load_store_of_disjoint {w : BitVec (8 * m)} (h : a + n ≤ b ∨ b + m ≤ a) :
    load n (store d b w) a = load n d a :=
  load_blit_of_disjoint h

end Words

/-! ## Arrays -/

/-- The bytes of object `i` of an array at `base` with objects of `size` bytes. -/
def strip (base size i : Nat) : Set Nat := Set.Ico (base + i * size) (base + i * size + size)

variable {base size bound n i j : Nat}

/-- Where an object ends in its array. -/
theorem strip_end_le (base size : Nat) (h : i < n) : base + i * size + size ≤ base + n * size := by
  have := Nat.mul_le_mul_right size h
  rw [Nat.succ_mul] at this
  omega

theorem strip_subset (h : i < n) : strip base size i ⊆ Set.Ico base (base + n * size) :=
  Set.Ico_subset_Ico (Nat.le_add_right ..) (strip_end_le base size h)

theorem strip_disjoint (h : i ≠ j) : Disjoint (strip base size i) (strip base size j) := by
  rw [Set.disjoint_left]
  intro x hi hj
  obtain ⟨hi₁, hi₂⟩ := hi
  obtain ⟨hj₁, hj₂⟩ := hj
  rcases Nat.lt_or_gt_of_ne h with hlt | hlt
  · have := strip_end_le base size hlt
    omega
  · have := strip_end_le base size hlt
    omega

/-- An array that reaches a bound has an object that starts before the bound and reaches it. -/
theorem exists_strip_past (hb : base < bound) (h : bound ≤ base + n * size) :
    ∃ i, i < n ∧ base + i * size < bound ∧ bound ≤ base + i * size + size := by
  have hpos : 0 < size := by
    rcases Nat.eq_zero_or_pos size with rfl | hpos
    · omega
    · exact hpos
  have hdiv := Nat.div_add_mod (bound - 1 - base) size
  have hmod := Nat.mod_lt (bound - 1 - base) hpos
  rw [Nat.mul_comm] at hdiv
  refine ⟨(bound - 1 - base) / size, ?_, by omega, by omega⟩
  by_contra hn
  have := Nat.mul_le_mul_right size (Nat.le_of_not_lt hn)
  omega

/-! ## Rounding -/

/-- Clearing the low bits of a word rounds it down. -/
theorem toNat_and_not {w : Nat} (x m : BitVec w) {k : Nat} (hm : m.toNat + 1 = 2 ^ k) :
    (x &&& ~~~m).toNat = x.toNat / 2 ^ k * 2 ^ k := by
  apply Nat.eq_of_testBit_eq
  intro i
  have hbit : m.getLsbD i = decide (i < k) := by
    rw [BitVec.getLsbD, show m.toNat = 2 ^ k - 1 by omega, Nat.testBit_two_pow_sub_one]
  have hx : x.toNat.testBit i = true → i < w := by
    intro h
    by_contra hi
    exact absurd (BitVec.getLsbD_of_ge x i (by omega)) (by rw [BitVec.getLsbD, h]; simp)
  rw [BitVec.testBit_toNat, BitVec.getLsbD_and, BitVec.getLsbD_not, hbit,
    Nat.testBit_mul_two_pow, Nat.testBit_div_two_pow, BitVec.getLsbD]
  rcases Nat.lt_or_ge i k with hlt | hge
  · simp [hlt]
  · rw [Nat.sub_add_cancel hge]
    cases hb : x.toNat.testBit i with
    | false => simp
    | true => simp [hge, hx hb]

end Bytes
