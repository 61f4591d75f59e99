import RingBuf.Conc.Protocol
import RingBuf.Word

/-!
# Slot sequence numbers

The discipline behind the Mpmc ring, on natural-number positions. Position `p` belongs to slot
`p % n`. A slot holding `p` waits for the push of position `p`, a slot holding `p + 1` holds
the element of position `p`, and releasing that element leaves `p + n`, the number the next
push of this slot waits for. A push claims the position `head` and a pop the position `tail`; a
claimed slot belongs to the claiming thread until it stores the next number.

`Slots.Inv` says where every slot of the window `tail, …, tail + n - 1` stands. It survives the
four moves: `claimPush`, `publish`, `claimPop`, `release`. From it, the claimed slots of
different threads are different (`Inv.exclusive`).
-/

namespace RingBuf

open Conc

/-- The counters, the slot numbers, and the positions that threads have claimed for writing and
for reading. -/
@[ext] structure Slots (Tid : Type) where
  head : Nat
  tail : Nat
  seq : Nat → Nat
  fill : Tid → Option Nat
  drain : Tid → Option Nat

namespace Slots

variable {Tid : Type} {n : Nat} {s : Slots Tid} {t u : Tid} {p q : Nat}

/-- Where every slot of the window stands. -/
structure Inv (n : Nat) (s : Slots Tid) : Prop where
  tail_le : s.tail ≤ s.head
  head_le : s.head ≤ s.tail + n
  /-- A published position is full, or its push still has the slot. -/
  full : ∀ p, s.tail ≤ p → p < s.head → s.seq (p % n) = p + 1 ∨ ∃ t, s.fill t = some p
  /-- A position to come is free, or the pop one lap before still has the slot. -/
  free : ∀ p, s.head ≤ p → p < s.tail + n →
    s.seq (p % n) = p ∨ ∃ t q, s.drain t = some q ∧ q + n = p
  fill : ∀ t p, s.fill t = some p → s.tail ≤ p ∧ p < s.head ∧ s.seq (p % n) = p
  fill_inj : ∀ t u p, s.fill t = some p → s.fill u = some p → t = u
  drain : ∀ t q, s.drain t = some q → q < s.tail ∧ s.head ≤ q + n ∧ s.seq (q % n) = q + 1
  drain_inj : ∀ t u q, s.drain t = some q → s.drain u = some q → t = u

/-- What a thread knows that read `sq` in the slot of `h` after reading `h` from the head: if
the numbers agreed and the head is still `h`, then position `h` is free. -/
def PushReady (n : Nat) (s : Slots Tid) (h sq : Nat) : Prop :=
  h ≤ s.head ∧ (sq = h → s.head = h → s.seq (h % n) = h ∧ h < s.tail + n)

/-- What a thread knows that read `sq` in the slot of `d` after reading `d` from the tail. -/
def PopReady (n : Nat) (s : Slots Tid) (d sq : Nat) : Prop :=
  d ≤ s.tail ∧ (sq = d + 1 → s.tail = d → s.seq (d % n) = d + 1 ∧ d < s.head)

/-- Nothing is claimed, and the slots wait for the pushes from `k` on, the start of a lap. -/
theorem inv_start {k : Nat} (hn : 2 ≤ n) (hk : n ∣ k) (hseq : ∀ i < n, s.seq i = k + i)
    (hh : s.head = k) (ht : s.tail = k) (hf : ∀ t, s.fill t = none) (hd : ∀ t, s.drain t = none) :
    Inv n s where
  tail_le := by omega
  head_le := by omega
  full p _ hp := by omega
  free p hp hp' := by
    obtain ⟨i, rfl⟩ : ∃ i, p = k + i := ⟨p - k, by omega⟩
    have hi : i < n := by omega
    have hmod : (k + i) % n = i := by
      obtain ⟨q, rfl⟩ := hk
      rw [Nat.mul_add_mod, Nat.mod_eq_of_lt hi]
    exact .inl (by rw [hmod, hseq i hi])
  fill t p h := by simp [hf] at h
  fill_inj t u p h := by simp [hf] at h
  drain t q h := by simp [hd] at h
  drain_inj t u q h := by simp [hd] at h

theorem inv_init (hn : 2 ≤ n) (hseq : ∀ i < n, s.seq i = i) (hh : s.head = 0) (ht : s.tail = 0)
    (hf : ∀ t, s.fill t = none) (hd : ∀ t, s.drain t = none) : Inv n s :=
  inv_start hn (Nat.dvd_zero n) (fun i hi => by rw [hseq i hi, Nat.zero_add]) hh ht hf hd

namespace Inv

/-! ## Claimed slots -/

/-- Two pushes in progress have different slots. -/
theorem fill_fill (hi : Inv n s) (ht : s.fill t = some p) (hu : s.fill u = some q)
    (h : p % n = q % n) : t = u ∧ p = q := by
  obtain ⟨hp₁, hp₂, -⟩ := hi.fill t p ht
  obtain ⟨hq₁, hq₂, -⟩ := hi.fill u q hu
  have hle := hi.head_le
  obtain rfl : p = q := eq_of_mod_eq h (by omega) (by omega)
  exact ⟨hi.fill_inj t u p ht hu, rfl⟩

theorem drain_drain (hi : Inv n s) (ht : s.drain t = some p) (hu : s.drain u = some q)
    (h : p % n = q % n) : t = u ∧ p = q := by
  obtain ⟨hp₁, hp₂, -⟩ := hi.drain t p ht
  obtain ⟨hq₁, hq₂, -⟩ := hi.drain u q hu
  have hle := hi.tail_le
  obtain rfl : p = q := eq_of_mod_eq h (by omega) (by omega)
  exact ⟨hi.drain_inj t u p ht hu, rfl⟩

theorem fill_drain (hi : Inv n s) (ht : s.fill t = some p) (hu : s.drain u = some q) :
    p % n ≠ q % n := by
  intro h
  obtain ⟨hp₁, hp₂, -⟩ := hi.fill t p ht
  obtain ⟨hq₁, hq₂, -⟩ := hi.drain u q hu
  have : p = q := eq_of_mod_eq h (by omega) (by omega)
  omega

/-- **Mutual exclusion.** At most one thread has claimed a position of a slot. -/
theorem exclusive (hi : Inv n s) (ht : s.fill t = some p ∨ s.drain t = some p)
    (hu : s.fill u = some q ∨ s.drain u = some q) (h : p % n = q % n) : t = u ∧ p = q := by
  rcases ht with ht | ht <;> rcases hu with hu | hu
  · exact hi.fill_fill ht hu h
  · exact absurd h (hi.fill_drain ht hu)
  · exact absurd h.symm (hi.fill_drain hu ht)
  · exact hi.drain_drain ht hu h

theorem full_of_ne (hi : Inv n s) (hp : s.tail ≤ p) (hp' : p < s.head)
    (h : ∀ t, s.fill t ≠ some p) : s.seq (p % n) = p + 1 :=
  (hi.full p hp hp').resolve_right fun ⟨t, ht⟩ => h t ht

/-! ## Reading a slot -/

/-- What the slot of `h` shows to a thread that has read the head. -/
theorem pushReady (hi : Inv n s) (hn : 2 ≤ n) {h : Nat} (hh : h ≤ s.head) :
    PushReady n s h (s.seq (h % n)) := by
  refine ⟨hh, fun hsq hhead => ⟨hsq, ?_⟩⟩
  -- Were the ring full, the slot would belong to the position one lap before.
  by_contra hfull
  have hle := hi.head_le
  have hmod : h % n = s.tail % n := mod_eq_of_add (by omega)
  have htail := hi.full s.tail le_rfl (by omega)
  rcases htail with hs | ⟨t, ht⟩
  · rw [← hmod] at hs; omega
  · obtain ⟨-, -, hs⟩ := hi.fill t s.tail ht
    rw [← hmod] at hs; omega

theorem popReady (hi : Inv n s) (hn : 2 ≤ n) {d : Nat} (hd : d ≤ s.tail) :
    PopReady n s d (s.seq (d % n)) := by
  refine ⟨hd, fun hsq htail => ⟨hsq, ?_⟩⟩
  by_contra hempty
  have hle := hi.tail_le
  rcases hi.free d (by omega) (by omega) with hs | ⟨t, q, ht, hq⟩
  · omega
  · obtain ⟨-, -, hs⟩ := hi.drain t q ht
    rw [← mod_eq_of_add hq] at hs; omega

/-- What a slot number can be: that of a position of its slot which is not yet published, or one
more than a position which is. -/
theorem seq_cases (hi : Inv n s) (hn : 2 ≤ n) (p : Nat) :
    ∃ q, q % n = p % n ∧ (s.seq (p % n) = q ∧ s.tail ≤ q ∧ q < s.tail + n ∨
      s.seq (p % n) = q + 1 ∧ s.tail ≤ q + n ∧ q < s.head) := by
  -- The position of the window that has this slot.
  have hlt : p % n < n := Nat.mod_lt _ (by omega)
  obtain ⟨q, hq, hq', hmod⟩ : ∃ q, s.tail ≤ q ∧ q < s.tail + n ∧ q % n = p % n := by
    have hdiv := Nat.div_add_mod (s.tail + n - 1 - p % n) n
    have hmod := Nat.mod_lt (s.tail + n - 1 - p % n) (show n > 0 by omega)
    refine ⟨p % n + n * ((s.tail + n - 1 - p % n) / n), by omega, by omega, ?_⟩
    rw [Nat.add_mul_mod_self_left, Nat.mod_mod]
  rw [← hmod]
  by_cases hfull : q < s.head
  · rcases hi.full q hq hfull with hs | ⟨t, ht⟩
    · exact ⟨q, rfl, .inr ⟨hs, Nat.le_add_right_of_le hq, hfull⟩⟩
    · exact ⟨q, rfl, .inl ⟨(hi.fill t q ht).2.2, hq, hq'⟩⟩
  · rcases hi.free q (by omega) hq' with hs | ⟨t, q', ht, hq₂⟩
    · exact ⟨q, rfl, .inl ⟨hs, hq, hq'⟩⟩
    · obtain ⟨hlt, -, hs⟩ := hi.drain t q' ht
      have hle := hi.tail_le
      rw [mod_eq_of_add hq₂]
      exact ⟨q', rfl, .inr ⟨hs, hq₂ ▸ hq, Nat.lt_of_lt_of_le hlt hle⟩⟩

/-- A slot number is within a lap of the tail. -/
theorem seq_near (hi : Inv n s) (hn : 2 ≤ n) (p : Nat) :
    s.tail < s.seq (p % n) + n ∧ s.seq (p % n) ≤ s.tail + n := by
  have hle := hi.head_le
  obtain ⟨q, -, ⟨hs, hq, hq'⟩ | ⟨hs, hq, hq'⟩⟩ := hi.seq_cases hn p
  · omega
  · omega

theorem seq_head_le (hi : Inv n s) (hn : 2 ≤ n) : s.seq (s.head % n) ≤ s.head := by
  have hle := hi.tail_le
  obtain ⟨q, hmod, ⟨hs, -, hq⟩ | ⟨hs, -, hq⟩⟩ := hi.seq_cases hn s.head
  · by_contra hlt
    have : q = s.head := eq_of_mod_eq hmod (by omega) (by omega)
    omega
  · omega

theorem seq_tail_le (hi : Inv n s) (hn : 2 ≤ n) : s.seq (s.tail % n) ≤ s.tail + 1 := by
  have hle := hi.head_le
  obtain ⟨q, hmod, ⟨hs, -, hq⟩ | ⟨hs, -, hq⟩⟩ := hi.seq_cases hn s.tail
  · by_contra hlt
    have : q = s.tail := eq_of_mod_eq hmod (by omega) (by omega)
    omega
  · by_contra hlt
    have : q = s.tail := eq_of_mod_eq hmod (by omega) (by omega)
    omega

/-- Before position `k`, a number of whole laps, no slot number is `k` ahead of the successor of a
position of its slot. -/
theorem seq_lt (hi : Inv n s) (hn : 2 ≤ n) {k : Nat} (hk : n ∣ k) (hhead : s.head < k) (d : Nat) :
    s.seq (d % n) < d + 1 + k := by
  have hle := hi.tail_le
  obtain ⟨q, hmod, ⟨hs, -, hq⟩ | ⟨hs, -, hq⟩⟩ := hi.seq_cases hn d
  · by_contra hge
    obtain ⟨j, rfl⟩ := hk
    obtain ⟨x, rfl⟩ : ∃ x, q = x + n * j := ⟨q - n * j, by omega⟩
    rw [Nat.add_mul_mod_self_left] at hmod
    have : x = d := eq_of_mod_eq hmod (by omega) (by omega)
    omega
  · omega

end Inv

/-! ## The four moves -/

variable [DecidableEq Tid]

/-- A push takes the position `head`. -/
def claimPush (s : Slots Tid) (t : Tid) : Slots Tid :=
  { s with head := s.head + 1, fill := Function.update s.fill t (some s.head) }

/-- A push stores its number and gives the slot up. -/
def publish (n : Nat) (s : Slots Tid) (t : Tid) (p : Nat) : Slots Tid :=
  { s with seq := Function.update s.seq (p % n) (p + 1), fill := Function.update s.fill t none }

/-- A pop takes the position `tail`. -/
def claimPop (s : Slots Tid) (t : Tid) : Slots Tid :=
  { s with tail := s.tail + 1, drain := Function.update s.drain t (some s.tail) }

/-- A pop stores the number of the next lap and gives the slot up. -/
def release (n : Nat) (s : Slots Tid) (t : Tid) (q : Nat) : Slots Tid :=
  { s with seq := Function.update s.seq (q % n) (q + n), drain := Function.update s.drain t none }

namespace Inv

theorem claimPush (hi : Inv n s) (hn : 2 ≤ n) (ht : s.fill t = none)
    (hseq : s.seq (s.head % n) = s.head) (hlt : s.head < s.tail + n) : Inv n (s.claimPush t) where
  tail_le := Nat.le_succ_of_le hi.tail_le
  head_le := hlt
  full p hp hp' := by
    simp only [Slots.claimPush] at hp hp' ⊢
    by_cases h : p = s.head
    · exact .inr ⟨t, by simp [h]⟩
    · refine (hi.full p hp (by omega)).imp_right fun ⟨u, hu⟩ => ⟨u, ?_⟩
      have hne : u ≠ t := by rintro rfl; simp [ht] at hu
      simpa [hne] using hu
  free p hp hp' := hi.free p (by simp only [Slots.claimPush] at hp; omega) hp'
  fill u p hu := by
    simp only [Slots.claimPush, update_some_iff] at hu ⊢
    rcases hu with ⟨-, hp⟩ | ⟨-, hu⟩
    · obtain rfl : s.head = p := Option.some.inj hp
      exact ⟨hi.tail_le, Nat.lt_succ_self _, hseq⟩
    · obtain ⟨h₁, h₂, h₃⟩ := hi.fill u p hu
      exact ⟨h₁, by omega, h₃⟩
  fill_inj u v p hu hv := by
    simp only [Slots.claimPush, update_some_iff] at hu hv
    rcases hu with ⟨rfl, hp⟩ | ⟨-, hu⟩ <;> rcases hv with ⟨rfl, hp'⟩ | ⟨-, hv⟩
    · rfl
    · obtain rfl : s.head = p := Option.some.inj hp
      exact absurd (hi.fill v _ hv).2.1 (lt_irrefl _)
    · obtain rfl : s.head = p := Option.some.inj hp'
      exact absurd (hi.fill u _ hu).2.1 (lt_irrefl _)
    · exact hi.fill_inj u v p hu hv
  drain u q hu := by
    obtain ⟨h₁, h₂, h₃⟩ := hi.drain u q hu
    refine ⟨h₁, ?_, h₃⟩
    -- The slot of the new position is free, so no pop still has it.
    have hne : s.head ≠ q + n := by
      intro h
      rw [mod_eq_of_add h.symm, h₃] at hseq
      omega
    simp only [Slots.claimPush]; omega
  drain_inj := hi.drain_inj

theorem publish (hi : Inv n s) (ht : s.fill t = some p) : Inv n (s.publish n t p) := by
  obtain ⟨hp₁, hp₂, -⟩ := hi.fill t p ht
  have hle := hi.head_le
  -- The other slots of the window keep their number.
  have hseq : ∀ q, q % n ≠ p % n → (s.publish n t p).seq (q % n) = s.seq (q % n) :=
    fun q hq => by simp [Slots.publish, hq]
  have hwin : ∀ q, s.tail ≤ q → q < s.tail + n → q ≠ p → q % n ≠ p % n :=
    fun q hq hq' hne h => hne (eq_of_mod_eq h (by omega) (by omega))
  exact {
    tail_le := hi.tail_le
    head_le := hi.head_le
    full := fun q hq hq' => by
      by_cases h : q = p
      · subst h; exact .inl (by simp [Slots.publish])
      · rw [hseq q (hwin q hq (by simp only [Slots.publish] at hq'; omega) h)]
        refine (hi.full q hq hq').imp_right fun ⟨u, hu⟩ => ⟨u, ?_⟩
        have hne : u ≠ t := by
          rintro rfl
          exact h (Option.some.inj (hu.symm.trans ht))
        simpa [Slots.publish, hne] using hu
    free := fun q hq hq' => by
      rw [hseq q (hwin q (by simp only [Slots.publish] at hq; omega) hq'
        (by simp only [Slots.publish] at hq; omega))]
      exact hi.free q hq hq'
    fill := fun u q hu => by
      simp only [Slots.publish, update_some_iff, reduceCtorEq, and_false, false_or] at hu
      obtain ⟨hne, hu⟩ := hu
      rw [hseq q fun h => hne (hi.fill_fill hu ht h).1]
      exact hi.fill u q hu
    fill_inj := fun u v q hu hv => by
      simp only [Slots.publish, update_some_iff, reduceCtorEq, and_false, false_or] at hu hv
      exact hi.fill_inj u v q hu.2 hv.2
    drain := fun u q hu => by
      rw [hseq q fun h => hi.fill_drain ht hu h.symm]
      exact hi.drain u q hu
    drain_inj := hi.drain_inj }

theorem claimPop (hi : Inv n s) (ht : s.drain t = none)
    (hseq : s.seq (s.tail % n) = s.tail + 1) (hlt : s.tail < s.head) : Inv n (s.claimPop t) where
  tail_le := hlt
  head_le := by have := hi.head_le; simp only [Slots.claimPop]; omega
  full p hp hp' := hi.full p (by simp only [Slots.claimPop] at hp; omega) hp'
  free p hp hp' := by
    simp only [Slots.claimPop] at hp hp' ⊢
    by_cases h : s.tail + n = p
    · exact .inr ⟨t, s.tail, by simp, h⟩
    · refine (hi.free p hp (by omega)).imp_right fun ⟨u, q, hu, hq⟩ => ⟨u, q, ?_, hq⟩
      have hne : u ≠ t := by rintro rfl; simp [ht] at hu
      simpa [hne] using hu
  fill u p hu := by
    obtain ⟨h₁, h₂, h₃⟩ := hi.fill u p hu
    refine ⟨?_, h₂, h₃⟩
    -- The slot of the old tail is full, so no push has it.
    have hne : p ≠ s.tail := by
      rintro rfl
      omega
    simp only [Slots.claimPop]; omega
  fill_inj := hi.fill_inj
  drain u q hu := by
    have hle := hi.head_le
    simp only [Slots.claimPop, update_some_iff] at hu ⊢
    rcases hu with ⟨-, hq⟩ | ⟨-, hu⟩
    · obtain rfl : s.tail = q := Option.some.inj hq
      exact ⟨Nat.lt_succ_self _, hle, hseq⟩
    · obtain ⟨h₁, h₂, h₃⟩ := hi.drain u q hu
      exact ⟨by omega, h₂, h₃⟩
  drain_inj u v q hu hv := by
    simp only [Slots.claimPop, update_some_iff] at hu hv
    rcases hu with ⟨rfl, hq⟩ | ⟨-, hu⟩ <;> rcases hv with ⟨rfl, hq'⟩ | ⟨-, hv⟩
    · rfl
    · obtain rfl : s.tail = q := Option.some.inj hq
      exact absurd (hi.drain v _ hv).1 (lt_irrefl _)
    · obtain rfl : s.tail = q := Option.some.inj hq'
      exact absurd (hi.drain u _ hu).1 (lt_irrefl _)
    · exact hi.drain_inj u v q hu hv

theorem release (hi : Inv n s) (ht : s.drain t = some p) : Inv n (s.release n t p) := by
  obtain ⟨hp₁, hp₂, -⟩ := hi.drain t p ht
  have hle := hi.tail_le
  have hseq : ∀ q, q % n ≠ p % n → (s.release n t p).seq (q % n) = s.seq (q % n) :=
    fun q hq => by simp [Slots.release, hq]
  have hwin : ∀ q, s.tail ≤ q → q < s.tail + n → q ≠ p + n → q % n ≠ p % n :=
    fun q hq hq' hne h =>
      hne (eq_of_mod_eq (h.trans (mod_eq_of_add rfl).symm) (by omega) (by omega))
  exact {
    tail_le := hi.tail_le
    head_le := hi.head_le
    full := fun q hq hq' => by
      simp only [Slots.release] at hq hq'
      rw [hseq q (hwin q hq (by omega) (by omega))]
      exact hi.full q hq hq'
    free := fun q hq hq' => by
      simp only [Slots.release] at hq hq'
      by_cases h : q = p + n
      · subst h; exact .inl (by simp [Slots.release])
      · rw [hseq q (hwin q (by omega) hq' h)]
        refine (hi.free q hq hq').imp_right fun ⟨u, q', hu, hq'⟩ => ⟨u, q', ?_, hq'⟩
        have hne : u ≠ t := by
          rintro rfl
          obtain rfl : q' = p := Option.some.inj (hu.symm.trans ht)
          exact h hq'.symm
        simpa [Slots.release, hne] using hu
    fill := fun u q hu => by
      rw [hseq q (hi.fill_drain hu ht)]
      exact hi.fill u q hu
    fill_inj := hi.fill_inj
    drain := fun u q hu => by
      simp only [Slots.release, update_some_iff, reduceCtorEq, and_false, false_or] at hu
      obtain ⟨hne, hu⟩ := hu
      rw [hseq q fun h => hne (hi.drain_drain hu ht h).1]
      exact hi.drain u q hu
    drain_inj := fun u v q hu hv => by
      simp only [Slots.release, update_some_iff, reduceCtorEq, and_false, false_or] at hu hv
      exact hi.drain_inj u v q hu.2 hv.2 }

end Inv

/-! ## What the readers still know -/

section Ready

variable {h sq : Nat}

theorem PushReady.claimPush (hr : PushReady n s h sq) : PushReady n (s.claimPush t) h sq :=
  ⟨Nat.le_succ_of_le hr.1, fun _ he => by
    have := hr.1
    simp only [Slots.claimPush] at he
    omega⟩

theorem PopReady.claimPush (hr : PopReady n s h sq) : PopReady n (s.claimPush t) h sq :=
  ⟨hr.1, fun h₁ h₂ => ⟨(hr.2 h₁ h₂).1, Nat.lt_succ_of_lt (hr.2 h₁ h₂).2⟩⟩

theorem PushReady.claimPop (hr : PushReady n s h sq) : PushReady n (s.claimPop t) h sq :=
  ⟨hr.1, fun h₁ h₂ => ⟨(hr.2 h₁ h₂).1, by
    have := (hr.2 h₁ h₂).2
    simp only [Slots.claimPop]; omega⟩⟩

theorem PopReady.claimPop (hr : PopReady n s h sq) : PopReady n (s.claimPop t) h sq :=
  ⟨Nat.le_succ_of_le hr.1, fun _ he => by
    have := hr.1
    simp only [Slots.claimPop] at he
    omega⟩

theorem PushReady.publish (hi : Inv n s) (ht : s.fill t = some p) (hr : PushReady n s h sq) :
    PushReady n (s.publish n t p) h sq := by
  refine ⟨hr.1, fun h₁ h₂ => ?_⟩
  obtain ⟨hs, hlt⟩ := hr.2 h₁ h₂
  obtain ⟨hp₁, hp₂, -⟩ := hi.fill t p ht
  simp only [Slots.publish] at h₂ ⊢
  have hne : h % n ≠ p % n := fun e => by
    have : h = p := eq_of_mod_eq e (by omega) (by omega)
    omega
  exact ⟨by simpa [hne] using hs, hlt⟩

theorem PopReady.publish (hi : Inv n s) (ht : s.fill t = some p) (hr : PopReady n s h sq) :
    PopReady n (s.publish n t p) h sq := by
  refine ⟨hr.1, fun h₁ h₂ => ?_⟩
  obtain ⟨hs, hlt⟩ := hr.2 h₁ h₂
  obtain ⟨hp₁, hp₂, hp₃⟩ := hi.fill t p ht
  have hle := hi.head_le
  simp only [Slots.publish] at h₂ ⊢
  have hne : h % n ≠ p % n := fun e => by
    have : h = p := eq_of_mod_eq e (by omega) (by omega)
    subst this
    omega
  exact ⟨by simpa [hne] using hs, hlt⟩

theorem PushReady.release (hi : Inv n s) (hn : 2 ≤ n) (ht : s.drain t = some p)
    (hr : PushReady n s h sq) : PushReady n (s.release n t p) h sq := by
  refine ⟨hr.1, fun h₁ h₂ => ?_⟩
  obtain ⟨hs, hlt⟩ := hr.2 h₁ h₂
  obtain ⟨hp₁, hp₂, hp₃⟩ := hi.drain t p ht
  have hle := hi.tail_le
  simp only [Slots.release] at h₂ ⊢
  have hne : h % n ≠ p % n := fun e => by
    have : h = p + n := eq_of_mod_eq (e.trans (mod_eq_of_add rfl).symm) (by omega) (by omega)
    rw [e] at hs
    omega
  exact ⟨by simpa [hne] using hs, hlt⟩

theorem PopReady.release (hi : Inv n s) (ht : s.drain t = some p) (hr : PopReady n s h sq) :
    PopReady n (s.release n t p) h sq := by
  refine ⟨hr.1, fun h₁ h₂ => ?_⟩
  obtain ⟨hs, hlt⟩ := hr.2 h₁ h₂
  obtain ⟨hp₁, hp₂, -⟩ := hi.drain t p ht
  simp only [Slots.release] at h₂ ⊢
  have hne : h % n ≠ p % n := fun e => by
    have : h = p := eq_of_mod_eq e (by omega) (by omega)
    omega
  exact ⟨by simpa [hne] using hs, hlt⟩

end Ready

end Slots

end RingBuf
