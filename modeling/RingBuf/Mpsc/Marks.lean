import RingBuf.Conc.Protocol
import RingBuf.Word

/-!
# Slots marked valid or empty

The discipline behind the Mpsc ring, on natural-number positions. A slot is marked valid or not;
the mark carries no lap number. A push takes the position `head` when it is less than `n` above
some earlier tail, and marks its slot when the copy is complete. The consumer reads the slot of
`tail` while it is marked, clears the mark, and only then advances the tail, so a slot is
unmarked whenever a push can claim it.

`Marks.Inv` says where every slot of the window `tail, …, tail + n - 1` stands. It survives the
five moves `claim`, `mark`, `accept`, `clear` and `advance`.
-/

namespace RingBuf

open Conc

/-- The counters, the marks, and what threads have in hand: a position claimed for writing, the
position the consumer is reading, the position it has cleared but not yet left. -/
@[ext] structure Marks (Tid : Type) where
  head : Nat
  tail : Nat
  valid : Nat → Bool
  fill : Tid → Option Nat
  drain : Tid → Option Nat
  cleared : Tid → Option Nat

namespace Marks

variable {Tid : Type} {n : Nat} {s : Marks Tid} {t u : Tid} {p q : Nat}

/-- Where every slot of the window stands. -/
structure Inv (n : Nat) (s : Marks Tid) : Prop where
  tail_le : s.tail ≤ s.head
  head_le : s.head ≤ s.tail + n
  /-- A claimed position is marked, or its push still copies, or its pop has just cleared it. -/
  full : ∀ p, s.tail ≤ p → p < s.head →
    s.valid (p % n) = true ∨ (∃ t, s.fill t = some p) ∨ ∃ t, s.cleared t = some p
  free : ∀ p, s.head ≤ p → p < s.tail + n → s.valid (p % n) = false
  fill : ∀ t p, s.fill t = some p → s.tail ≤ p ∧ p < s.head ∧ s.valid (p % n) = false
  fill_inj : ∀ t u p, s.fill t = some p → s.fill u = some p → t = u
  drain : ∀ t q, s.drain t = some q → q = s.tail ∧ q < s.head ∧ s.valid (q % n) = true
  cleared : ∀ t q, s.cleared t = some q →
    q = s.tail ∧ q < s.head ∧ s.valid (q % n) = false ∧ ∀ u, s.fill u ≠ some q

theorem inv_init (hvalid : ∀ i < n, s.valid i = false) (hn : 0 < n) (hh : s.head = 0)
    (ht : s.tail = 0) (hf : ∀ t, s.fill t = none) (hd : ∀ t, s.drain t = none)
    (hc : ∀ t, s.cleared t = none) : Inv n s where
  tail_le := by omega
  head_le := by omega
  full p _ hp := by omega
  free p _ _ := hvalid _ (Nat.mod_lt p hn)
  fill t p h := by simp [hf] at h
  fill_inj t u p h := by simp [hf] at h
  drain t q h := by simp [hd] at h
  cleared t q h := by simp [hc] at h

namespace Inv

theorem fill_fill (hi : Inv n s) (ht : s.fill t = some p) (hu : s.fill u = some q)
    (h : p % n = q % n) : t = u ∧ p = q := by
  obtain ⟨hp₁, hp₂, -⟩ := hi.fill t p ht
  obtain ⟨hq₁, hq₂, -⟩ := hi.fill u q hu
  have hle := hi.head_le
  obtain rfl : p = q := eq_of_mod_eq h (by omega) (by omega)
  exact ⟨hi.fill_inj t u p ht hu, rfl⟩

/-- A slot that is being read is no push's. -/
theorem fill_drain (hi : Inv n s) (ht : s.fill t = some p) (hu : s.drain u = some q) :
    p % n ≠ q % n := by
  intro h
  have hp := (hi.fill t p ht).2.2
  have hq := (hi.drain u q hu).2.2
  rw [h, hq] at hp
  cases hp

/-- A marked slot holds the oldest element, if it is the slot of the tail. -/
theorem tail_lt (hi : Inv n s) (hn : 0 < n) (h : s.valid (s.tail % n) = true) :
    s.tail < s.head := by
  by_contra hle
  have := hi.tail_le
  rw [hi.free s.tail (by omega) (by omega)] at h
  cases h

end Inv

/-! ## The five moves -/

variable [DecidableEq Tid]

/-- A push takes the position `head`. -/
def claim (s : Marks Tid) (t : Tid) : Marks Tid :=
  { s with head := s.head + 1, fill := Function.update s.fill t (some s.head) }

/-- A push marks its slot and gives it up. -/
def mark (n : Nat) (s : Marks Tid) (t : Tid) (p : Nat) : Marks Tid :=
  { s with valid := Function.update s.valid (p % n) true, fill := Function.update s.fill t none }

/-- The consumer finds the slot of the tail marked. -/
def accept (s : Marks Tid) (t : Tid) : Marks Tid :=
  { s with drain := Function.update s.drain t (some s.tail) }

/-- The consumer clears the mark. -/
def clear (n : Nat) (s : Marks Tid) (t : Tid) (q : Nat) : Marks Tid :=
  { s with
    valid := Function.update s.valid (q % n) false
    drain := Function.update s.drain t none
    cleared := Function.update s.cleared t (some q) }

/-- The consumer goes on to the next position. -/
def advance (s : Marks Tid) (t : Tid) : Marks Tid :=
  { s with tail := s.tail + 1, cleared := Function.update s.cleared t none }

namespace Inv

theorem claim (hi : Inv n s) (ht : s.fill t = none) (hlt : s.head < s.tail + n) :
    Inv n (s.claim t) where
  tail_le := Nat.le_succ_of_le hi.tail_le
  head_le := hlt
  full p hp hp' := by
    simp only [Marks.claim] at hp hp' ⊢
    by_cases h : p = s.head
    · exact .inr (.inl ⟨t, by simp [h]⟩)
    · refine (hi.full p hp (by omega)).imp_right (Or.imp_left fun ⟨u, hu⟩ => ⟨u, ?_⟩)
      have hne : u ≠ t := by rintro rfl; simp [ht] at hu
      simpa [hne] using hu
  free p hp hp' := hi.free p (by simp only [Marks.claim] at hp; omega) hp'
  fill u p hu := by
    simp only [Marks.claim, update_some_iff] at hu ⊢
    rcases hu with ⟨-, hp⟩ | ⟨-, hu⟩
    · obtain rfl : s.head = p := Option.some.inj hp
      exact ⟨hi.tail_le, Nat.lt_succ_self _, hi.free _ le_rfl hlt⟩
    · obtain ⟨h₁, h₂, h₃⟩ := hi.fill u p hu
      exact ⟨h₁, by omega, h₃⟩
  fill_inj u v p hu hv := by
    simp only [Marks.claim, update_some_iff] at hu hv
    rcases hu with ⟨rfl, hp⟩ | ⟨-, hu⟩ <;> rcases hv with ⟨rfl, hp'⟩ | ⟨-, hv⟩
    · rfl
    · obtain rfl : s.head = p := Option.some.inj hp
      exact absurd (hi.fill v _ hv).2.1 (lt_irrefl _)
    · obtain rfl : s.head = p := Option.some.inj hp'
      exact absurd (hi.fill u _ hu).2.1 (lt_irrefl _)
    · exact hi.fill_inj u v p hu hv
  drain u q hu := by
    obtain ⟨h₁, h₂, h₃⟩ := hi.drain u q hu
    exact ⟨h₁, Nat.lt_succ_of_lt h₂, h₃⟩
  cleared u q hu := by
    obtain ⟨h₁, h₂, h₃, h₄⟩ := hi.cleared u q hu
    refine ⟨h₁, Nat.lt_succ_of_lt h₂, h₃, fun v hv => ?_⟩
    simp only [Marks.claim, update_some_iff] at hv
    rcases hv with ⟨-, hq⟩ | ⟨-, hv⟩
    · have : s.head = q := Option.some.inj hq
      omega
    · exact h₄ v hv

theorem mark (hi : Inv n s) (ht : s.fill t = some p) : Inv n (s.mark n t p) := by
  obtain ⟨hp₁, hp₂, hpv⟩ := hi.fill t p ht
  have hle := hi.head_le
  -- The other slots of the window keep their mark.
  have hwin : ∀ q, s.tail ≤ q → q < s.tail + n → q ≠ p →
      (s.mark n t p).valid (q % n) = s.valid (q % n) := by
    intro q hq hq' hne
    have : q % n ≠ p % n := fun h => hne (eq_of_mod_eq h (by omega) (by omega))
    simp [Marks.mark, this]
  exact {
    tail_le := hi.tail_le
    head_le := hi.head_le
    full := fun q hq hq' => by
      simp only [Marks.mark] at hq hq'
      by_cases h : q = p
      · subst h; exact .inl (by simp [Marks.mark])
      · rw [hwin q hq (by omega) h]
        refine (hi.full q hq hq').imp_right (Or.imp_left fun ⟨u, hu⟩ => ⟨u, ?_⟩)
        have hne : u ≠ t := by
          rintro rfl
          exact h (Option.some.inj (hu.symm.trans ht))
        simpa [Marks.mark, hne] using hu
    free := fun q hq hq' => by
      simp only [Marks.mark] at hq hq'
      rw [hwin q (by omega) hq' (by omega)]
      exact hi.free q hq hq'
    fill := fun u q hu => by
      simp only [Marks.mark, update_some_iff, reduceCtorEq, and_false, false_or] at hu
      obtain ⟨hne, hu⟩ := hu
      obtain ⟨h₁, h₂, h₃⟩ := hi.fill u q hu
      have hq : q ≠ p := by
        rintro rfl
        exact hne (hi.fill_inj u t q hu ht)
      exact ⟨h₁, h₂, by rw [hwin q h₁ (by omega) hq]; exact h₃⟩
    fill_inj := fun u v q hu hv => by
      simp only [Marks.mark, update_some_iff, reduceCtorEq, and_false, false_or] at hu hv
      exact hi.fill_inj u v q hu.2 hv.2
    drain := fun u q hu => by
      obtain ⟨h₁, h₂, h₃⟩ := hi.drain u q hu
      have hne : q % n ≠ p % n := (hi.fill_drain ht hu).symm
      exact ⟨h₁, h₂, by simpa [Marks.mark, hne] using h₃⟩
    cleared := fun u q hu => by
      obtain ⟨h₁, h₂, h₃, h₄⟩ := hi.cleared u q hu
      have hq : q ≠ p := by
        rintro rfl
        exact h₄ t ht
      refine ⟨h₁, h₂, by rw [hwin q h₁.ge (by omega) hq]; exact h₃, fun v hv => ?_⟩
      simp only [Marks.mark, update_some_iff, reduceCtorEq, and_false, false_or] at hv
      exact h₄ v hv.2 }

theorem accept (hi : Inv n s) (hn : 0 < n) (h : s.valid (s.tail % n) = true) :
    Inv n (s.accept t) where
  tail_le := hi.tail_le
  head_le := hi.head_le
  full := hi.full
  free := hi.free
  fill := hi.fill
  fill_inj := hi.fill_inj
  drain u q hu := by
    simp only [Marks.accept, update_some_iff] at hu ⊢
    rcases hu with ⟨-, hq⟩ | ⟨-, hu⟩
    · obtain rfl : s.tail = q := Option.some.inj hq
      exact ⟨rfl, hi.tail_lt hn h, h⟩
    · exact hi.drain u q hu
  cleared := hi.cleared

theorem clear (hi : Inv n s) (ht : s.drain t = some q)
    (hone : ∀ u ≠ t, s.drain u = none ∧ s.cleared u = none) : Inv n (s.clear n t q) := by
  obtain ⟨rfl, hq, hqv⟩ := hi.drain t q ht
  have hle := hi.head_le
  have hfill : ∀ u, s.fill u ≠ some s.tail := fun u hu => hi.fill_drain hu ht rfl
  have hwin : ∀ p, s.tail ≤ p → p < s.tail + n → p ≠ s.tail →
      (s.clear n t s.tail).valid (p % n) = s.valid (p % n) := by
    intro p hp hp' hne
    have : p % n ≠ s.tail % n := fun h => hne (eq_of_mod_eq h (by omega) (by omega))
    simp [Marks.clear, this]
  exact {
    tail_le := hi.tail_le
    head_le := hi.head_le
    full := fun p hp hp' => by
      simp only [Marks.clear] at hp hp'
      by_cases h : p = s.tail
      · exact .inr (.inr ⟨t, by simp [Marks.clear, h]⟩)
      · rw [hwin p hp (by omega) h]
        refine (hi.full p hp hp').imp_right (Or.imp_right fun ⟨u, hu⟩ => ?_)
        exact absurd (hi.cleared u p hu).1 h
    free := fun p hp hp' => by
      simp only [Marks.clear] at hp hp'
      rw [hwin p (by omega) hp' (by omega)]
      exact hi.free p hp hp'
    fill := fun u p hu => by
      obtain ⟨h₁, h₂, h₃⟩ := hi.fill u p hu
      have hne : p ≠ s.tail := by
        rintro rfl
        exact hfill u hu
      exact ⟨h₁, h₂, by rw [hwin p h₁ (by omega) hne]; exact h₃⟩
    fill_inj := hi.fill_inj
    drain := fun u p hu => by
      simp only [Marks.clear, update_some_iff, reduceCtorEq, and_false, false_or] at hu
      obtain ⟨hne, hu⟩ := hu
      rw [(hone u hne).1] at hu
      cases hu
    cleared := fun u p hu => by
      simp only [Marks.clear, update_some_iff] at hu ⊢
      rcases hu with ⟨-, hp⟩ | ⟨hne, hu⟩
      · obtain rfl : s.tail = p := Option.some.inj hp
        exact ⟨rfl, hq, by simp, hfill⟩
      · rw [(hone u hne).2] at hu
        cases hu }

theorem advance (hi : Inv n s) (ht : s.cleared t = some q)
    (hone : ∀ u ≠ t, s.drain u = none ∧ s.cleared u = none) (hdt : s.drain t = none) :
    Inv n (s.advance t) := by
  obtain ⟨rfl, hq, hqv, hfill⟩ := hi.cleared t q ht
  have hle := hi.head_le
  have hcl : ∀ u, (s.advance t).cleared u = none := by
    intro u
    by_cases hu : u = t
    · simp [Marks.advance, hu]
    · simp [Marks.advance, hu, (hone u hu).2]
  exact {
    tail_le := hq
    head_le := by simp only [Marks.advance]; omega
    full := fun p hp hp' => by
      simp only [Marks.advance] at hp hp'
      rcases hi.full p (by omega) hp' with h | h | ⟨u, hu⟩
      · exact .inl h
      · exact .inr (.inl h)
      · have := (hi.cleared u p hu).1
        omega
    free := fun p hp hp' => by
      simp only [Marks.advance] at hp hp' ⊢
      by_cases h : p = s.tail + n
      · rw [h, Nat.add_mod_right]
        exact hqv
      · exact hi.free p hp (by omega)
    fill := fun u p hu => by
      obtain ⟨h₁, h₂, h₃⟩ := hi.fill u p hu
      have hne : p ≠ s.tail := by
        rintro rfl
        exact hfill u hu
      exact ⟨by simp only [Marks.advance]; omega, h₂, h₃⟩
    fill_inj := hi.fill_inj
    drain := fun u p hu => by
      simp only [Marks.advance] at hu
      by_cases hut : u = t
      · rw [hut, hdt] at hu
        cases hu
      · rw [(hone u hut).1] at hu
        cases hu
    cleared := fun u p hu => by
      rw [hcl u] at hu
      cases hu }

end Inv

end Marks

end RingBuf
