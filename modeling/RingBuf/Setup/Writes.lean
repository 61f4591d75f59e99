import RingBuf.Setup.Exits

/-!
# What the constructors write

A constructor writes through the pointer of the new ring. Through a shared mapping that changes
the bytes of the file (`Os.SharedAt`), through any other memory it changes no file
(`Os.Isolated`).
-/

namespace RingBuf

open Conc Bytes

namespace Setup

variable {Path : Type}

/-- The bytes after some stores. -/
def storeData (d : Data) : List Store → Data
  | [] => d
  | .size a v :: xs => storeData (store (n := 8) d a v) xs
  | .int a v :: xs => storeData (store (n := 4) d a v) xs

/-- The bytes after the initialisation of the synchronisation objects has failed. -/
def syncResidue (env : Env) (d : Data) : Data :=
  let init := fun (x : Sync) d => blit d x.offset x.size (env.initialised x)
  let destroy := fun (x : Sync) d => blit d x.offset x.size (env.destroyed x)
  if env.syncInit .mtx ≠ 0 then d
  else if env.syncInit .writeable ≠ 0 then destroy .mtx (init .mtx d)
  else destroy .writeable (destroy .mtx (init .writeable (init .mtx d)))

/-- The bytes once the synchronisation objects are set up. -/
def syncData (env : Env) (d : Data) : Data :=
  let init := fun (x : Sync) d => blit d x.offset x.size (env.initialised x)
  init .readable (init .writeable (init .mtx d))

theorem blit_congr {d d' : Data} {a n i : Nat} {image : Data} (h : d i = d' i) :
    blit d a n image i = blit d' a n image i := by
  unfold blit
  rw [h]

/-- What a failed initialisation leaves in a byte depends on that byte only. -/
theorem syncResidue_congr {env : Env} {d d' : Data} {i : Nat} (h : d i = d' i) :
    syncResidue env d i = syncResidue env d' i := by
  unfold syncResidue
  split_ifs
  · exact h
  · exact blit_congr (blit_congr h)
  · exact blit_congr (blit_congr (blit_congr (blit_congr h)))

theorem storeData_append (d : Data) (xs ys : List Store) :
    storeData d (xs ++ ys) = storeData (storeData d xs) ys := by
  induction xs generalizing d with
  | nil => rfl
  | cons x xs ih => cases x <;> exact ih _

/-- The bytes that a store touches. -/
def Store.area : Store → Nat × Nat
  | .size a _ => (a, 8)
  | .int a _ => (a, 4)

/-- A word that no store touches. -/
theorem load_storeData {d : Data} {xs : List Store} {a n : Nat}
    (h : ∀ x ∈ xs, a + n ≤ x.area.1 ∨ x.area.1 + x.area.2 ≤ a) :
    load n (storeData d xs) a = load n d a := by
  induction xs generalizing d with
  | nil => rfl
  | cons x xs ih =>
    have hx := h x (List.mem_cons_self ..)
    have hxs := fun y hy => h y (List.mem_cons_of_mem _ hy)
    cases x with
    | size b v => exact (ih hxs).trans (load_store_of_disjoint hx)
    | int b v => exact (ih hxs).trans (load_store_of_disjoint hx)

namespace Os

/-- A shared mapping of a file starts at `p`. -/
structure SharedAt (s : Os Path) (p : Addr) (f : FileId) : Prop where
  heap : s.proc.heap p = none
  maps : s.proc.maps p = some (.shared f)

/-- Memory of the process alone starts at `p`. -/
def Isolated (s : Os Path) (p : Addr) : Prop :=
  (s.proc.heap p).isSome ∨ ∃ b, s.proc.maps p = some b ∧ ∀ f, b ≠ .shared f

variable {s : Os Path} {p : Addr} {f : FileId}

section Shared

variable (h : s.SharedAt p f)
include h

theorem SharedAt.data : s.data p = (s.files.file f).data := by
  simp only [Os.data, h.heap, h.maps]

theorem SharedAt.write (a n : Nat) (image : Data) : (s.write p a n image).SharedAt p f ∧
    (s.write p a n image).files.file f =
      { s.files.file f with data := blit (s.files.file f).data a n image } := by
  simp only [Os.write, h.heap, h.maps]
  exact ⟨⟨h.heap, h.maps⟩, Function.update_self ..⟩

theorem SharedAt.stores (xs : List Store) : (s.stores p xs).SharedAt p f ∧
    (s.stores p xs).files.file f =
      { s.files.file f with data := storeData (s.files.file f).data xs } := by
  induction xs generalizing s with
  | nil => exact ⟨h, rfl⟩
  | cons x xs ih =>
    cases x with
    | size a v =>
      have hw := h.write a 8 (bytes (n := 8) v)
      have hs := ih hw.1
      rw [hw.2] at hs
      exact hs
    | int a v =>
      have hw := h.write a 4 (bytes (n := 4) v)
      have hs := ih hw.1
      rw [hw.2] at hs
      exact hs

theorem SharedAt.synced (env : Env) : (s.synced env p).SharedAt p f ∧
    (s.synced env p).files.file f =
      { s.files.file f with data := syncData env (s.files.file f).data } := by
  have h₁ := h.write Sync.mtx.offset Sync.mtx.size (env.initialised .mtx)
  have h₂ := h₁.1.write Sync.writeable.offset Sync.writeable.size (env.initialised .writeable)
  have h₃ := h₂.1.write Sync.readable.offset Sync.readable.size (env.initialised .readable)
  refine ⟨h₃.1, h₃.2.trans ?_⟩
  rw [h₂.2, h₁.2]
  rfl

theorem SharedAt.syncFailed (env : Env) : (s.syncFailed env p).files.file f =
    { s.files.file f with data := syncResidue env (s.files.file f).data } := by
  have h₁ := h.write Sync.mtx.offset Sync.mtx.size (env.initialised .mtx)
  unfold Os.syncFailed syncResidue
  split_ifs with hm hw
  · rfl
  · have h₂ := h₁.1.write Sync.mtx.offset Sync.mtx.size (env.destroyed .mtx)
    rw [h₁.2] at h₂
    exact h₂.2
  · have h₂ := h₁.1.write Sync.writeable.offset Sync.writeable.size (env.initialised .writeable)
    have h₃ := h₂.1.write Sync.mtx.offset Sync.mtx.size (env.destroyed .mtx)
    have h₄ := h₃.1.write Sync.writeable.offset Sync.writeable.size (env.destroyed .writeable)
    rw [h₃.2, h₂.2, h₁.2] at h₄
    exact h₄.2

end Shared

section Isolated

variable (h : s.Isolated p)
include h

theorem Isolated.write (a n : Nat) (image : Data) :
    (s.write p a n image).Isolated p ∧ (s.write p a n image).files = s.files := by
  unfold Os.write
  split
  case h_1 => exact ⟨.inl (by simp [Os.setHeap]), rfl⟩
  case h_2 f hheap hmap =>
    rcases h with h | ⟨b, hb, hne⟩
    · rw [hheap] at h
      cases h
    · exact absurd (Option.some.inj (hb.symm.trans hmap)) (hne f)
  case h_3 f copy _ _ =>
    exact ⟨.inr ⟨_, Function.update_self .., fun g hg => Backing.noConfusion hg⟩, rfl⟩
  case h_4 d _ _ =>
    exact ⟨.inr ⟨_, Function.update_self .., fun g hg => Backing.noConfusion hg⟩, rfl⟩
  case h_5 => exact ⟨h, rfl⟩

theorem Isolated.stores (xs : List Store) : (s.stores p xs).files = s.files := by
  induction xs generalizing s with
  | nil => rfl
  | cons x xs ih =>
    cases x with
    | size a v => exact (ih (h.write ..).1).trans (h.write ..).2
    | int a v => exact (ih (h.write ..).1).trans (h.write ..).2

theorem Isolated.synced (env : Env) :
    (s.synced env p).Isolated p ∧ (s.synced env p).files = s.files := by
  have h₁ := h.write Sync.mtx.offset Sync.mtx.size (env.initialised .mtx)
  have h₂ := h₁.1.write Sync.writeable.offset Sync.writeable.size (env.initialised .writeable)
  have h₃ := h₂.1.write Sync.readable.offset Sync.readable.size (env.initialised .readable)
  exact ⟨h₃.1, h₃.2.trans (h₂.2.trans h₁.2)⟩

theorem Isolated.syncFailed (env : Env) : (s.syncFailed env p).files = s.files := by
  have h₁ := h.write Sync.mtx.offset Sync.mtx.size (env.initialised .mtx)
  unfold Os.syncFailed
  split_ifs
  · rfl
  · exact (h₁.1.write ..).2.trans h₁.2
  · have h₂ := h₁.1.write Sync.writeable.offset Sync.writeable.size (env.initialised .writeable)
    have h₃ := h₂.1.write Sync.mtx.offset Sync.mtx.size (env.destroyed .mtx)
    exact (h₃.1.write ..).2.trans (h₃.2.trans (h₂.2.trans h₁.2))

end Isolated

end Os

end Setup

end RingBuf
