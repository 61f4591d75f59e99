import Mathlib.Data.Set.Card
import Mathlib.Logic.Function.Basic

/-!
# Counted pointers

Pointer variables that share ownership: each is empty or holds a *block*, and every block counts
the variables that hold it. Whoever takes the last one away frees the block. An assignment
follows the usual pattern: the new value is held by a temporary, which is swapped with the
variable and then released (`Shared.store`).

* `Counted`: the count of a block is the number of its owners, and the freed blocks are those
  without owner, each freed once. Every operation keeps it.
-/

namespace RefCount

variable {V : Type}

/-- Pointer variables with the blocks they hold, the counts of the blocks, how many blocks have
been made, and those that have been freed, in their order. -/
structure Shared (V : Type) where
  held : V → Option Nat
  useCount : Nat → Nat
  made : Nat
  freed : List Nat

namespace Shared

/-- All variables are empty. -/
def empty : Shared V := ⟨fun _ => none, fun _ => 0, 0, []⟩

/-- A temporary copy of a pointer. -/
def acquire (s : Shared V) : Option Nat → Shared V
  | none => s
  | some b => { s with useCount := Function.update s.useCount b (s.useCount b + 1) }

/-- A temporary goes away. -/
def release (s : Shared V) : Option Nat → Shared V
  | none => s
  | some b =>
    { s with
      useCount := Function.update s.useCount b (s.useCount b - 1)
      freed := if s.useCount b = 1 then s.freed ++ [b] else s.freed }

variable [DecidableEq V]

/-- A temporary holding `x` is swapped with a variable and goes away. -/
def store (s : Shared V) (v : V) (x : Option Nat) : Shared V :=
  { s with held := Function.update s.held v x }.release (s.held v)

/-- `v = w` -/
def copy (s : Shared V) (v w : V) : Shared V := (s.acquire (s.held w)).store v (s.held w)

/-- `v = std::move(w)` -/
def move (s : Shared V) (v w : V) : Shared V :=
  { s with held := Function.update s.held w none }.store v (s.held w)

/-- `v` becomes empty. -/
def reset (s : Shared V) (v : V) : Shared V := s.store v none

/-- `v` gets a new block. -/
def make (s : Shared V) (v : V) : Shared V :=
  { s with
    useCount := Function.update s.useCount s.made 1
    made := s.made + 1 }.store v (some s.made)

end Shared

/-- The counts are right, where a temporary holds `tmp`, and what has no owner has been freed
once. -/
structure Counted (tmp : Option Nat) (s : Shared V) : Prop where
  count : ∀ b, {v | s.held v = some b}.encard + (if tmp = some b then 1 else 0) = s.useCount b
  lt : ∀ b, s.useCount b ≠ 0 → b < s.made
  nodup : s.freed.Nodup
  mem_freed : ∀ b, b ∈ s.freed ↔ b < s.made ∧ s.useCount b = 0

theorem counted_empty : Counted none (.empty : Shared V) := by
  refine ⟨fun b => ?_, fun b h => ?_, List.nodup_nil, fun b => ?_⟩
  · simp [Shared.empty]
  · exact absurd rfl h
  · simp [Shared.empty]

/-- The owners of a block, one variable apart. -/
theorem encard_owners [DecidableEq V] (f : V → Option Nat) (v : V) (b : Nat) :
    {u | f u = some b}.encard =
      {u | u ≠ v ∧ f u = some b}.encard + if f v = some b then 1 else 0 := by
  by_cases hv : f v = some b
  · have hset : {u | f u = some b} = insert v {u | u ≠ v ∧ f u = some b} := by
      ext u
      by_cases hu : u = v
      · simp [hu, hv]
      · simp [hu]
    rw [hset, Set.encard_insert_of_notMem (by simp), if_pos hv]
  · have hset : {u | f u = some b} = {u | u ≠ v ∧ f u = some b} := by
      ext u
      constructor
      · intro hu
        refine ⟨?_, hu⟩
        rintro rfl
        exact hv hu
      · exact And.right
    rw [hset, if_neg hv, add_zero]

namespace Counted

variable {s : Shared V} {tmp : Option Nat} {v w : V} {b : Nat}

/-- A block with an owner has not been freed. -/
theorem useCount_ne_zero (h : Counted tmp s) (hv : s.held v = some b) : s.useCount b ≠ 0 := by
  intro h0
  have hc := h.count b
  rw [h0, Nat.cast_zero, add_eq_zero, Set.encard_eq_zero] at hc
  exact Set.notMem_empty v (hc.1 ▸ hv)

/-- The blocks that have been freed are those without owner. -/
theorem mem_freed_iff (h : Counted none s) :
    b ∈ s.freed ↔ b < s.made ∧ ∀ v, s.held v ≠ some b := by
  rw [h.mem_freed]
  refine and_congr_right fun _ => ⟨fun h0 v hv => h.useCount_ne_zero hv h0, fun hn => ?_⟩
  have hc := h.count b
  have hempty : {v | s.held v = some b} = ∅ := Set.eq_empty_iff_forall_notMem.2 hn
  rw [hempty] at hc
  simpa using hc.symm

theorem acquire (h : Counted none s) (w : V) : Counted (s.held w) (s.acquire (s.held w)) := by
  cases hw : s.held w with
  | none => exact h
  | some b =>
    have hne := h.useCount_ne_zero hw
    refine ⟨fun c => ?_, fun c hc => ?_, h.nodup, fun c => ?_⟩
    · have hcount := h.count c
      by_cases hcb : c = b
      · subst hcb
        simpa [Shared.acquire] using hcount
      · simpa [Shared.acquire, hcb, Ne.symm hcb] using hcount
    · by_cases hcb : c = b
      · exact hcb ▸ h.lt b hne
      · exact h.lt c (by simpa [Shared.acquire, hcb] using hc)
    · by_cases hcb : c = b
      · subst hcb
        simpa [Shared.acquire, hne] using h.mem_freed c
      · simpa [Shared.acquire, hcb] using h.mem_freed c

theorem release (h : Counted tmp s) : Counted none (s.release tmp) := by
  cases tmp with
  | none => exact h
  | some b =>
    have hb := h.count b
    rw [if_pos rfl] at hb
    obtain ⟨n, hn⟩ : ∃ n, s.useCount b = n + 1 := by
      refine Nat.exists_eq_succ_of_ne_zero fun h0 => ?_
      rw [h0] at hb
      simp at hb
    have hlt : b < s.made := h.lt b (by omega)
    have hnot : b ∉ s.freed := fun hm => by
      have := ((h.mem_freed b).1 hm).2
      omega
    refine ⟨fun c => ?_, fun c hc => ?_, ?_, fun c => ?_⟩
    · have hcount := h.count c
      by_cases hcb : c = b
      · subst hcb
        rw [hn, Nat.cast_succ] at hb
        have := ENat.add_left_injective_of_ne_top ENat.one_ne_top hb
        simpa [Shared.release, hn] using this
      · simpa [Shared.release, hcb, Ne.symm hcb] using hcount
    · by_cases hcb : c = b
      · exact hcb ▸ hlt
      · exact h.lt c (by simpa [Shared.release, hcb] using hc)
    · show (if s.useCount b = 1 then s.freed ++ [b] else s.freed).Nodup
      split_ifs
      · rw [List.nodup_append]
        refine ⟨h.nodup, List.nodup_singleton b, fun c hc d hd => ?_⟩
        obtain rfl := List.mem_singleton.1 hd
        rintro rfl
        exact hnot hc
      · exact h.nodup
    · show c ∈ (if s.useCount b = 1 then s.freed ++ [b] else s.freed) ↔
        c < s.made ∧ Function.update s.useCount b (s.useCount b - 1) c = 0
      by_cases hcb : c = b
      · subst hcb
        rw [Function.update_self, hn]
        split_ifs with h1
        · simp [hlt, show n = 0 by omega]
        · simp [hnot, show n ≠ 0 by omega]
      · rw [Function.update_of_ne hcb]
        split_ifs
        · simpa [hcb] using h.mem_freed c
        · exact h.mem_freed c

variable [DecidableEq V]

theorem swap (h : Counted tmp s) (v : V) :
    Counted (s.held v) { s with held := Function.update s.held v tmp } := by
  refine ⟨fun b => ?_, h.lt, h.nodup, h.mem_freed⟩
  have hrest : {u | u ≠ v ∧ Function.update s.held v tmp u = some b} =
      {u | u ≠ v ∧ s.held u = some b} := by
    ext u
    exact and_congr_right fun hu => by rw [Function.update_of_ne hu]
  have hcount := h.count b
  rw [encard_owners s.held v] at hcount
  show {u | Function.update s.held v tmp u = some b}.encard + _ = _
  rw [encard_owners _ v, hrest, Function.update_self, add_right_comm]
  exact hcount

theorem store (h : Counted tmp s) (v : V) : Counted none (s.store v tmp) := (h.swap v).release

theorem copy (h : Counted none s) (v w : V) : Counted none (s.copy v w) := (h.acquire w).store v

theorem move (h : Counted none s) (v w : V) : Counted none (s.move v w) := (h.swap w).store v

theorem reset (h : Counted none s) (v : V) : Counted none (s.reset v) := h.store v

theorem make (h : Counted none s) (v : V) : Counted none (s.make v) := by
  have hnew : s.useCount s.made = 0 := by
    by_contra hne
    exact absurd (h.lt _ hne) (lt_irrefl _)
  have hmade : Counted (some s.made) { s with
      useCount := Function.update s.useCount s.made 1
      made := s.made + 1 } := by
    refine ⟨fun b => ?_, fun b hb => ?_, h.nodup, fun b => ?_⟩
    · have hcount := h.count b
      by_cases hbm : b = s.made
      · subst hbm
        rw [hnew] at hcount
        simpa using hcount
      · simpa [hbm, Ne.symm hbm] using hcount
    · by_cases hbm : b = s.made
      · exact hbm ▸ Nat.lt_succ_self _
      · exact Nat.lt_succ_of_lt (h.lt b (by simpa [hbm] using hb))
    · show b ∈ s.freed ↔ b < s.made + 1 ∧ Function.update s.useCount s.made 1 b = 0
      rw [h.mem_freed]
      by_cases hbm : b = s.made
      · simp [hbm]
      · rw [Function.update_of_ne hbm]
        refine and_congr_left fun _ => ?_
        omega
  exact hmade.store v

end Counted

/-! ## Who holds what afterwards -/

namespace Shared

variable (s : Shared V)

@[simp] theorem release_held (x : Option Nat) : (s.release x).held = s.held := by
  cases x <;> rfl

@[simp] theorem release_made (x : Option Nat) : (s.release x).made = s.made := by
  cases x <;> rfl

@[simp] theorem acquire_held (x : Option Nat) : (s.acquire x).held = s.held := by
  cases x <;> rfl

@[simp] theorem acquire_made (x : Option Nat) : (s.acquire x).made = s.made := by
  cases x <;> rfl

variable [DecidableEq V] (v w : V)

@[simp] theorem copy_held : (s.copy v w).held = Function.update s.held v (s.held w) := by
  simp [copy, store]

@[simp] theorem move_held : (s.move v w).held =
    Function.update (Function.update s.held w none) v (s.held w) := by
  simp [move, store]

@[simp] theorem reset_held : (s.reset v).held = Function.update s.held v none := by
  simp [reset, store]

@[simp] theorem make_held : (s.make v).held = Function.update s.held v (some s.made) := by
  simp [make, store]

@[simp] theorem copy_made : (s.copy v w).made = s.made := by
  simp [copy, store]

@[simp] theorem move_made : (s.move v w).made = s.made := by
  simp [move, store]

@[simp] theorem reset_made : (s.reset v).made = s.made := by
  simp [reset, store]

@[simp] theorem make_made : (s.make v).made = s.made + 1 := by
  simp [make, store]

end Shared

end RefCount
