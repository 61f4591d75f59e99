import RingBuf.Contents

/-!
# A queue in a wrapping window

The Spsc and Block rings use their counters modulo `2 ^ 64` and never look at a slot word. The
elements of the queue are numbered from `p` on; number `k` stands at position `p + k`, whose word
is `BitVec.ofNat 64 (p + k)`. As long as no more than `r.cap` elements wait, differences and
equality of counter words are those of the positions, and different waiting elements have
different slots.
-/

namespace RingBuf

open Conc Word LawfulWord

/-! ## Counter words of a window -/

/-- The counter word of a position. -/
abbrev word (p : Nat) : SizeT := BitVec.ofNat 64 p

theorem word_succ (p : Nat) : word p + 1 = word (p + 1) := (BitVec.ofNat_add ..).symm

theorem word_toNat (w : SizeT) : word (toNat w) = w := by
  show BitVec.ofNat 64 w.toNat = w
  rw [BitVec.ofNat_toNat, BitVec.setWidth_eq]

theorem toNat_word (p : Nat) : toNat (word p) = p % 2 ^ 64 := BitVec.toNat_ofNat ..

theorem toNat_word_sub {p q : Nat} (hle : q ≤ p) (hlt : p < q + 2 ^ 64) :
    toNat (word p - word q) = p - q := by
  show (word p - word q).toNat = p - q
  rw [BitVec.toNat_sub, BitVec.toNat_ofNat, BitVec.toNat_ofNat]
  omega

theorem word_inj {p q : Nat} (hle : q ≤ p) (hlt : p < q + 2 ^ 64) : word p = word q ↔ p = q := by
  constructor
  · intro h
    have hsub := toNat_word_sub hle hlt
    rw [h, BitVec.sub_self] at hsub
    have hz : 0 = p - q := hsub
    omega
  · intro h
    rw [h]

theorem word_add_toNat_sub (p : Nat) (w : SizeT) : word (p + (w - word p).toNat) = w := by
  show BitVec.ofNat 64 (p + (w - word p).toNat) = w
  rw [BitVec.ofNat_add, BitVec.ofNat_toNat, BitVec.setWidth_eq, BitVec.add_comm,
    BitVec.sub_add_cancel]

/-- The next position, from `p` on, that has the word `w`. -/
def ahead (p : Nat) (w : SizeT) : Nat := p + (w - word p).toNat

theorem word_ahead (p : Nat) (w : SizeT) : word (ahead p w) = w := word_add_toNat_sub p w

theorem le_ahead (p : Nat) (w : SizeT) : p ≤ ahead p w := Nat.le_add_right ..

theorem ahead_lt (p : Nat) (w : SizeT) : ahead p w < p + 2 ^ 64 :=
  Nat.add_lt_add_left (w - word p).isLt p

theorem ahead_word {p q : Nat} (hle : q ≤ p) (hlt : p < q + 2 ^ 64) : ahead q (word p) = p := by
  have hsub : (word p - word q).toNat = p - q := toNat_word_sub hle hlt
  rw [ahead, hsub, Nat.add_sub_cancel' hle]

/-- The position does not change when the window moves on. -/
theorem ahead_succ {p : Nat} {w : SizeT} (h : ahead p w ≠ p) : ahead (p + 1) w = ahead p w := by
  have hle := le_ahead p w
  have hlt := ahead_lt p w
  have hword := ahead_word (p := ahead p w) (q := p + 1) (by omega) (by omega)
  rwa [word_ahead] at hword

namespace Ring

variable (r : Ring SizeT)

/-- The slot of a position does not change when its counter wraps. -/
theorem index_toNat_word (p : Nat) : r.index (toNat (word p)) = r.index p := by
  have hdvd : r.cap ∣ 2 ^ 64 := r.cap_dvd.trans (pow_dvd_pow 2 (by decide))
  rw [toNat_word, index, index, Nat.mod_mod_of_dvd p hdvd]

/-- The slot of a word is that of the positions it stands for. -/
theorem toNat_and_mask_ahead (p : Nat) (w : SizeT) :
    toNat (w &&& r.mask) = ahead p w % r.cap := by
  have h := r.index_toNat_word (ahead p w)
  rw [word_ahead] at h
  rw [r.toNat_and_mask, h]
  rfl

theorem addr_word (p : Nat) : r.addr (word p &&& r.mask) = r.base p := by
  rw [addr_and_mask, base, base, index_toNat_word]

theorem full_iff {p q : Nat} (hle : q ≤ p) (hroom : p ≤ q + r.cap) :
    word p - word q ≥ r.objNum ↔ p = q + r.cap := by
  have hcap := r.cap_le
  have hsub := toNat_word_sub hle (show p < q + 2 ^ 64 by omega)
  show r.cap ≤ toNat (word p - word q) ↔ p = q + r.cap
  rw [hsub]
  omega

theorem empty_iff {p q : Nat} (hle : q ≤ p) (hroom : p ≤ q + r.cap) :
    word p = word q ↔ p = q := by
  have hcap := r.cap_le
  exact word_inj hle (by omega)

end Ring

/-! ## The waiting elements -/

/-- The elements of the queue `q` from number `i` on stand in their slots. -/
def Stored (r : Ring SizeT) (buffer : Nat → Byte) (p : Nat) (q : List Elem) (i : Nat) : Prop :=
  ∀ k e, i ≤ k → q[k]? = some e → Copied r buffer (p + k) e

namespace Stored

variable {r : Ring SizeT} {buffer : Nat → Byte} {p i j : Nat} {q : List Elem} {e : Elem} {b : Byte}

theorem nil : Stored r buffer p [] i := by
  intro k e _ hk
  simp at hk

/-- Waiting elements do not have the slot of the position to be filled next. -/
theorem index_ne (hroom : q.length < i + r.cap) {k : Nat} (hi : i ≤ k) (hk : k < q.length) :
    r.index (p + q.length) ≠ r.index (p + k) := by
  intro h
  have : p + q.length = p + k := eq_of_mod_eq h (by omega) (by omega)
  omega

theorem write (h : Stored r buffer p q i) (hroom : q.length < i + r.cap) (hj : j < r.objSize) :
    Stored r (Function.update buffer (r.base (p + q.length) + j) b) p q i := by
  intro k e hi hk
  have hlt : k < q.length := (List.getElem?_eq_some_iff.1 hk).1
  exact (h k e hi hk).write hj (index_ne hroom hi hlt)

theorem push (h : Stored r buffer p q i) (he : Copied r buffer (p + q.length) e) :
    Stored r buffer p (q ++ [e]) i := by
  intro k e' hi hk
  rcases Nat.lt_trichotomy k q.length with hlt | rfl | hgt
  · rw [List.getElem?_append_left hlt] at hk
    exact h k e' hi hk
  · rw [List.getElem?_concat_length] at hk
    exact Option.some.inj hk ▸ he
  · rw [List.getElem?_eq_none (by simpa [Nat.succ_le_iff] using hgt)] at hk
    cases hk

theorem pop (h : Stored r buffer p q i) : Stored r buffer p q (i + 1) :=
  fun k e hi hk => h k e (Nat.le_of_succ_le hi) hk

end Stored

end RingBuf
