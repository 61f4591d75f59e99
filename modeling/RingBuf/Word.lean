import Mathlib.Data.Nat.ModEq
import Mathlib.Data.Nat.Log
import Mathlib.Tactic.Ring

/-!
# Counter words

The counters `head_` and `tail_` and the slot sequence numbers are `size_t` words. The code only
adds to them, masks them, compares them, and takes the signed difference of two of them, so the
ring's functions are written over any type with these operations (`Word`): the 64-bit words of
the program, or the natural numbers of the same ring with counters that never wrap.

* `Word`, `LawfulWord`: the operations, and what they do to the number a word stands for as long
  as that number fits.
* `eq_of_mod_eq`: two positions of one window that share a slot are equal.
* `exists_two_pow`: the capacity test of `get_buf` accepts powers of two only.
-/

namespace RingBuf

/-- `size_t` on the 64-bit targets of the library. -/
abbrev SizeT := BitVec 64

/-- The word operations of the ring's functions. -/
class Word (W : Type) extends Zero W, One W, Add W, AndOp W where
  decEq : DecidableEq W
  ofNat : Nat → W
  toNat : W → Nat
  /-- `(intptr_t) a - (intptr_t) b` -/
  dif : W → W → Int
  /-- `(ssize_t) a` -/
  toSsize : W → Int

attribute [reducible, instance] Word.decEq

export Word (toNat)

/-- 64-bit words; the signed difference is the two's complement value modulo `2 ^ 64`. -/
instance : Word SizeT where
  zero := 0#64
  one := 1#64
  decEq := inferInstance
  ofNat := BitVec.ofNat 64
  toNat := BitVec.toNat
  dif a b := (a - b).toInt
  toSsize := BitVec.toInt

/-- Counters that never wrap. -/
instance : Word Nat where
  decEq := inferInstance
  ofNat := id
  toNat := id
  dif a b := a - b
  toSsize := Int.ofNat

/-- The word operations compute with the numbers the words stand for, as long as these fit. -/
class LawfulWord (W : Type) [Word W] where
  /-- The numbers that have a word of their own. -/
  Fits : Nat → Prop
  fits_mono : ∀ {m n}, m ≤ n → Fits n → Fits m
  toNat_inj : ∀ {a b : W}, Word.toNat a = Word.toNat b → a = b
  toNat_zero : Word.toNat (0 : W) = 0
  toNat_ofNat : ∀ {n}, Fits n → Word.toNat (Word.ofNat n : W) = n
  toNat_one : Word.toNat (1 : W) = 1
  toNat_add : ∀ {a b : W}, Fits (Word.toNat a + Word.toNat b) →
    Word.toNat (a + b) = Word.toNat a + Word.toNat b
  toNat_and : ∀ {a m : W} {k}, Word.toNat m + 1 = 2 ^ k →
    Word.toNat (a &&& m) = Word.toNat a % 2 ^ k
  dif_eq_zero : ∀ {a b : W}, Word.dif a b = 0 ↔ a = b

open Word LawfulWord

instance : LawfulWord SizeT where
  Fits n := n < 2 ^ 64
  fits_mono := Nat.lt_of_le_of_lt
  toNat_inj h := BitVec.eq_of_toNat_eq h
  toNat_zero := rfl
  toNat_one := rfl
  toNat_ofNat h := (BitVec.toNat_ofNat ..).trans (Nat.mod_eq_of_lt h)
  toNat_add {a b} h := by
    show (a + b).toNat = _
    rw [BitVec.toNat_add]
    exact Nat.mod_eq_of_lt h
  toNat_and {a m k} h := by
    show (a &&& m).toNat = a.toNat % 2 ^ k
    have hm : m.toNat = 2 ^ k - 1 := by
      have h' : m.toNat + 1 = 2 ^ k := h
      omega
    rw [BitVec.toNat_and, hm, Nat.and_two_pow_sub_one_eq_mod]
  dif_eq_zero {a b} := by
    show (a - b).toInt = 0 ↔ a = b
    rw [← BitVec.toInt_zero (w := 64), BitVec.toInt_inj, BitVec.sub_eq_iff_eq_add, BitVec.zero_add]

instance : LawfulWord Nat where
  Fits _ := True
  fits_mono _ _ := trivial
  toNat_inj h := h
  toNat_zero := rfl
  toNat_one := rfl
  toNat_ofNat _ := rfl
  toNat_add _ := rfl
  toNat_and {a m k} h := by
    show a &&& m = a % 2 ^ k
    have hm : m = 2 ^ k - 1 := by
      have h' : m + 1 = 2 ^ k := h
      omega
    rw [hm, Nat.and_two_pow_sub_one_eq_mod]
  dif_eq_zero {a b} := by
    show (a : Int) - b = 0 ↔ a = b
    omega

/-- The signed difference of two words that are less than half the range apart. -/
theorem dif_eq_sub {a b : SizeT} (hlt : toNat a < toNat b + 2 ^ 63)
    (hle : toNat b ≤ toNat a + 2 ^ 63) : dif a b = (toNat a : Int) - toNat b := by
  show (a - b).toInt = (a.toNat : Int) - b.toNat
  have ha := a.isLt
  have hb := b.isLt
  have hlt' : a.toNat < b.toNat + 2 ^ 63 := hlt
  have hle' : b.toNat ≤ a.toNat + 2 ^ 63 := hle
  rw [BitVec.toInt_eq_toNat_cond, BitVec.toNat_sub]
  split <;> omega

/-! ## Windows -/

theorem eq_of_mod_eq {n p q : Nat} (h : p % n = q % n) (hp : p < q + n) (hq : q < p + n) :
    p = q := by
  rcases Nat.le_total p q with hle | hle
  · exact Nat.ModEq.eq_of_abs_lt h (by rw [abs_lt]; omega)
  · exact Nat.ModEq.eq_of_abs_lt h (by rw [abs_lt]; omega)

/-- Positions `n` apart share a slot. -/
theorem mod_eq_of_add {n p q : Nat} (h : q + n = p) : p % n = q % n := by
  rw [← h, Nat.add_mod_right]

theorem succ_mod_ne {n p : Nat} (hn : 2 ≤ n) : (p + 1) % n ≠ p % n := by
  intro h
  have : p + 1 = p := eq_of_mod_eq h (by omega) (by omega)
  omega

/-! ## The capacity test -/

/-- A number that shares no bit with its predecessor is a power of two. -/
theorem exists_two_pow {n : Nat} (hn : 1 ≤ n) (h : n &&& (n - 1) = 0) : ∃ k, n = 2 ^ k := by
  have h₀ : n ≠ 0 := by omega
  have hle : 2 ^ Nat.log2 n ≤ n := Nat.log2_self_le h₀
  have hlt : n < 2 ^ (Nat.log2 n + 1) := Nat.lt_log2_self
  by_contra hne
  have hne' : n ≠ 2 ^ Nat.log2 n := fun e => hne ⟨_, e⟩
  -- Otherwise the top bit of `n` is also a bit of `n - 1`.
  have bit : ∀ m, 2 ^ Nat.log2 n ≤ m → m < 2 ^ (Nat.log2 n + 1) →
      m.testBit (Nat.log2 n) = true := by
    intro m h₁ h₂
    have hd : m / 2 ^ Nat.log2 n = 1 := by
      rw [Nat.pow_succ] at h₂
      exact Nat.div_eq_of_lt_le (by omega) (by omega)
    rw [Nat.testBit_eq_decide_div_mod_eq, hd]
    rfl
  have hb := congrArg (fun m => m.testBit (Nat.log2 n)) h
  simp only [Nat.testBit_and, bit n hle hlt, bit (n - 1) (by omega) (by omega)] at hb
  simp at hb

end RingBuf
