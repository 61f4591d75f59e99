import Mathlib.Data.Set.Card

/-!
# A mutex with condition variables

The part of the shared state that a mutex and its condition variables make up: who holds the mutex,
and who sleeps on which condition. Waiting is two operations, going to sleep (which releases the
mutex) and taking the mutex again, which is possible only once woken. A signal wakes at least one
of the sleepers, and sleepers may wake up by themselves.

A condition is `Covered` when, as long as somebody sleeps on it, the threads that have been woken
and have not taken the mutex again are enough for what there is to do (`level`). The lemmas say
what each operation does to this; `slack` is what the holder of the mutex still owes.
-/

namespace Conc

/-- Who holds the mutex, and who sleeps on which condition variable. -/
structure Monitor (Cond Tid : Type) where
  owner : Option Tid
  asleep : Tid → Option Cond

namespace Monitor

variable {Cond Tid : Type}

/-- A free mutex, with nobody asleep. -/
def new : Monitor Cond Tid := ⟨none, fun _ => none⟩

/-- Thread `t` takes the free mutex. -/
def Lock (t : Tid) (m m' : Monitor Cond Tid) : Prop :=
  m.owner = none ∧ m' = { m with owner := some t }

/-- The mutex is released. -/
def unlock (m : Monitor Cond Tid) : Monitor Cond Tid := { m with owner := none }

/-- Thread `t` releases the mutex and goes to sleep on `c`. -/
def sleep [DecidableEq Tid] (t : Tid) (c : Cond) (m : Monitor Cond Tid) : Monitor Cond Tid :=
  ⟨none, Function.update m.asleep t (some c)⟩

/-- Thread `t`, awake, takes the mutex again. -/
def Relock (t : Tid) (m m' : Monitor Cond Tid) : Prop := m.asleep t = none ∧ Lock t m m'

/-- Some sleepers on `c` are woken, at least one if there is one. -/
def Signal (c : Cond) (m m' : Monitor Cond Tid) : Prop :=
  m'.owner = m.owner ∧
  (∀ u, m'.asleep u = m.asleep u ∨ (m.asleep u = some c ∧ m'.asleep u = none)) ∧
  ((∃ u, m.asleep u = some c) → ∃ u, m.asleep u = some c ∧ m'.asleep u = none)

/-- A sleeper wakes up by itself. -/
def Wake [DecidableEq Tid] (m m' : Monitor Cond Tid) : Prop :=
  ∃ u, m.asleep u ≠ none ∧ m' = { m with asleep := Function.update m.asleep u none }

variable {m m' : Monitor Cond Tid} {c c' : Cond} {t : Tid}

/-! ## Waking only -/

/-- From `m` to `m'` threads wake up and none falls asleep. -/
def Wakes (m m' : Monitor Cond Tid) : Prop := ∀ u, m'.asleep u = m.asleep u ∨ m'.asleep u = none

theorem Wakes.refl : Wakes m m := fun _ => .inl rfl

theorem Signal.wakes (h : Signal c m m') : Wakes m m' := by
  intro u
  rcases h.2.1 u with h | h
  · exact .inl h
  · exact .inr h.2

theorem Wake.wakes [DecidableEq Tid] (h : Wake m m') : Wakes m m' := by
  obtain ⟨v, -, rfl⟩ := h
  intro u
  by_cases hu : u = v
  · exact .inr (by simp [hu])
  · exact .inl (by simp [hu])

theorem Wakes.asleep (h : Wakes m m') {u : Tid} (hu : m'.asleep u = some c) :
    m.asleep u = some c := by
  rcases h u with h | h
  · rw [← h, hu]
  · rw [h] at hu
    cases hu

theorem Wakes.awake (h : Wakes m m') {u : Tid} (hu : m.asleep u = none) : m'.asleep u = none := by
  rcases h u with h | h
  · rw [h, hu]
  · exact h

/-! ## Enough woken threads -/

/-- The threads of `waits` that are awake. -/
def woken (m : Monitor Cond Tid) (waits : Set Tid) : Set Tid := {u | u ∈ waits ∧ m.asleep u = none}

/-- While somebody sleeps on `c`, the woken ones and what is owed cover the level. -/
def Covered (m : Monitor Cond Tid) (c : Cond) (waits : Set Tid) (level slack : Nat) : Prop :=
  (∃ u, m.asleep u = some c) → (level : ℕ∞) ≤ (m.woken waits).encard + slack

namespace Covered

variable {waits waits' : Set Tid} {level level' slack slack' : Nat}

theorem weaken (h : Covered m c waits level slack) (hle : level' + slack ≤ level + slack') :
    Covered m c waits level' slack' := by
  intro hu
  have hcov := h hu
  cases hn : (m.woken waits).encard with
  | top => simp
  | coe n =>
    rw [hn] at hcov
    have hcov' : level ≤ n + slack := by exact_mod_cast hcov
    have hgoal : level' ≤ n + slack' := by omega
    exact_mod_cast hgoal

theorem zero : Covered m c waits 0 slack := fun _ => zero_le

/-- The sleepers and the waiting threads stay the same. -/
theorem congr (h : Covered m c waits level slack) (hm : m'.asleep = m.asleep) :
    Covered m' c waits level slack := by
  intro hu
  rw [hm] at hu
  have := h hu
  rwa [woken, hm]

theorem sleep_ne [DecidableEq Tid] (h : Covered m c waits level slack) (hne : c' ≠ c)
    (ht : t ∉ waits) :
    Covered (m.sleep t c') c waits level slack := by
  intro ⟨u, hu⟩
  have hut : u ≠ t := by
    rintro rfl
    exact hne (by simpa [sleep] using hu)
  have hold : m.asleep u = some c := by simpa [sleep, hut] using hu
  have hsame : (m.sleep t c').woken waits = m.woken waits := by
    ext v
    by_cases hv : v = t
    · subst hv
      simp [woken, ht]
    · simp [woken, sleep, hv]
  rw [hsame]
  exact h ⟨u, hold⟩

theorem wakes (h : Covered m c waits level slack) (hw : Wakes m m') :
    Covered m' c waits level slack := by
  intro ⟨u, hu⟩
  have hsub : m.woken waits ⊆ m'.woken waits := fun v hv => ⟨hv.1, hw.awake hv.2⟩
  calc (level : ℕ∞) ≤ (m.woken waits).encard + slack := h ⟨u, hw.asleep hu⟩
    _ ≤ (m'.woken waits).encard + slack := by
      gcongr

/-- A signal pays what is owed. -/
theorem signal (h : Covered m c waits level (slack + 1)) (hs : Signal c m m')
    (hin : ∀ u, m.asleep u = some c → u ∈ waits) : Covered m' c waits level slack := by
  intro ⟨u, hu⟩
  have hold := hs.wakes.asleep hu
  obtain ⟨v, hv, hv'⟩ := hs.2.2 ⟨u, hold⟩
  have hnot : v ∉ m.woken waits := by
    intro hmem
    rw [hmem.2] at hv
    cases hv
  have hsub : insert v (m.woken waits) ⊆ m'.woken waits := by
    intro w hw
    rcases hw with rfl | hw
    · exact ⟨hin w hv, hv'⟩
    · exact ⟨hw.1, hs.wakes.awake hw.2⟩
  calc (level : ℕ∞) ≤ (m.woken waits).encard + (slack + 1 : Nat) := h ⟨u, hold⟩
    _ = (insert v (m.woken waits)).encard + slack := by
      rw [Set.encard_insert_of_notMem hnot, Nat.cast_add, Nat.cast_one, add_assoc,
        add_comm (1 : ℕ∞)]
    _ ≤ (m'.woken waits).encard + slack := by
      gcongr

/-- A woken thread takes the mutex and owes one. -/
theorem relock (h : Covered m c waits level slack) (hr : Relock t m m')
    (hsub : ∀ u ∈ waits, u = t ∨ u ∈ waits') : Covered m' c waits' level (slack + 1) := by
  obtain ⟨-, -, rfl⟩ := hr
  intro ⟨u, hu⟩
  have hins : m.woken waits ⊆ insert t (m.woken waits') := by
    intro v hv
    rcases hsub v hv.1 with rfl | hv'
    · exact .inl rfl
    · exact .inr ⟨hv', hv.2⟩
  show (level : ℕ∞) ≤ (m.woken waits').encard + (slack + 1 : Nat)
  calc (level : ℕ∞) ≤ (m.woken waits).encard + slack := h ⟨u, hu⟩
    _ ≤ (m.woken waits').encard + 1 + slack := by
      gcongr
      exact (Set.encard_le_encard hins).trans (Set.encard_insert_le _ _)
    _ = (m.woken waits').encard + (slack + 1 : Nat) := by
      rw [Nat.cast_add, Nat.cast_one, add_assoc, add_comm (1 : ℕ∞)]

end Covered

end Monitor

end Conc
