import RingBuf.Setup.Delete
import Mathlib.Order.Bounds.Basic

/-!
# Unmapping a shared ring

With huge pages `get_buf_shm` rounds the length of the mapping up to whole pages. The header gets
the total size from before the rounding, and a destructor unmaps that many bytes. So the whole
mapping is unmapped just when there was nothing to round, by an attached process only if it sees
the header at all (`unmaps_whole_iff`).
-/

namespace RingBuf

open Conc Bytes

namespace Setup

/-! ## Whole huge pages -/

/-- `HUGEPAGE_SIZE` -/
def hugepageSize : Nat := 2 * 1024 * 1024

/-- A number of bytes rounded up to whole huge pages. -/
def hugePages (n : Nat) : Nat := (n + (hugepageSize - 1)) / hugepageSize * hugepageSize

theorem isLeast_hugePages (n : Nat) :
    IsLeast {m | hugepageSize ∣ m ∧ n ≤ m} (hugePages n) := by
  unfold hugePages hugepageSize
  constructor
  · refine ⟨Nat.dvd_mul_left .., ?_⟩
    omega
  · intro m hm
    obtain ⟨⟨k, rfl⟩, hle⟩ := hm
    omega

theorem hugePages_eq_iff {n : Nat} : hugePages n = n ↔ hugepageSize ∣ n := by
  constructor
  · intro h
    rw [← h]
    exact Nat.dvd_mul_left ..
  · intro h
    exact (isLeast_hugePages n).unique ⟨⟨h, Nat.le_refl n⟩, fun m hm => hm.2⟩

/-- The computation in floating point is exact for sizes below `2 ^ 53`. -/
def ExactHuge (hugeSize : SizeT → SizeT) : Prop :=
  ∀ x : SizeT, x.toNat < 2 ^ 53 → hugeSize x = .ofNat 64 (hugePages x.toNat)

theorem ExactHuge.toNat {hugeSize : SizeT → SizeT} (h : ExactHuge hugeSize) {x : SizeT}
    (hx : x.toNat < 2 ^ 53) : (hugeSize x).toNat = hugePages x.toNat := by
  rw [h x hx, BitVec.toNat_ofNat]
  apply Nat.mod_eq_of_lt
  unfold hugePages hugepageSize
  omega

variable {Path : Type} {s : Os Path} {p : Addr}

/-! ## The header -/

/-- What the header of a ring says: it is mapped, with `len` bytes. -/
def HeaderSays (k : Kind) (d : Data) (len : SizeT) : Prop :=
  load 4 d (k.offset .mapType) = mapShm ∧ load 8 d (k.offset .totalSize) = len

/-- Two pieces of memory agree in the fields that a destructor unmaps by. -/
def SameHeader (k : Kind) (d d' : Data) : Prop :=
  load 4 d' (k.offset .mapType) = load 4 d (k.offset .mapType) ∧
    load 8 d' (k.offset .totalSize) = load 8 d (k.offset .totalSize)

theorem SameHeader.says_iff {k : Kind} {d d' : Data} (h : SameHeader k d d') {len : SizeT} :
    HeaderSays k d' len ↔ HeaderSays k d len := by
  unfold HeaderSays
  rw [h.1, h.2]

theorem slot_area {objNum objSize : SizeT} {useSlot : CInt}
    (hs : has useSlot (mpmcSlot ||| mpscSlot) = true) {f : SizeT → SizeT} {x : Store}
    (hx : x ∈ slotStores (getTotalSize objNum objSize useSlot).slotOffS objNum f) :
    x.area.1 = slotOffsetAt ∨ 64 ∣ x.area.1 ∧ x.area.2 = 8 := by
  rcases List.mem_cons.1 hx with rfl | hx
  · exact .inl rfl
  · obtain ⟨i, -, rfl⟩ := List.mem_map.1 hx
    have hdvd := dvd_objsEnd dvd_sizeofRingBuf objNum objSize
    refine .inr ⟨?_, rfl⟩
    show 64 ∣ ((getTotalSize objNum objSize useSlot).slotOffS + sizeofSlot * .ofNat 64 i).toNat
    rw [getTotalSize_slots _ _ hs, BitVec.toNat_add, BitVec.toNat_mul, Nat.add_mod_mod]
    exact (Nat.dvd_mod_iff ⟨2 ^ 58, rfl⟩).2 (Nat.dvd_add hdvd (Nat.dvd_mul_right ..))

theorem slotInit_area {objNum objSize : SizeT} {useSlot : CInt} {x : Store}
    (hx : x ∈ slotInit (getTotalSize objNum objSize useSlot) objNum useSlot) :
    164 ≤ x.area.1 ∨ x.area.1 + x.area.2 ≤ 152 := by
  have hslots : ∀ f, has useSlot (mpmcSlot ||| mpscSlot) = true →
      x ∈ slotStores (getTotalSize objNum objSize useSlot).slotOffS objNum f →
      164 ≤ x.area.1 ∨ x.area.1 + x.area.2 ≤ 152 := by
    intro f hs hx
    rcases slot_area hs hx with h | ⟨⟨j, hj⟩, h⟩
    · exact .inl (h ▸ (by decide))
    · omega
  unfold slotInit at hx
  split_ifs at hx with h₁ h₂
  · exact hslots id (by rw [has_or, h₁]; rfl) hx
  · exact hslots _ (by rw [has_or, h₂, Bool.or_true]) hx
  · cases hx

theorem load_storeData_int {d : Data} (pre : List Store) {post : List Store} {a : Nat} {v : CInt}
    (h : ∀ x ∈ post, a + 4 ≤ x.area.1 ∨ x.area.1 + x.area.2 ≤ a) :
    load 4 (storeData d (pre ++ .int a v :: post)) a = v := by
  rw [storeData_append]
  exact (load_storeData h).trans (load_store_self (n := 4) v)

/-- The header that `get_buf` leaves. -/
theorem ringStores_says {objNum objSize : SizeT} {useSlot prot fd : CInt}
    (hprot : mapType prot = mapShm) {k : Kind} (hk : k.offset = Field.offset) (d : Data) :
    HeaderSays k (storeData d (ringStores (getTotalSize objNum objSize useSlot) objNum useSlot
      prot fd)) (getTotalSize objNum objSize useSlot).totalSize := by
  -- Behind `mapType_` come the descriptor, the offset of the buffer and the slots.
  have hpost : ∀ x ∈ (headerStores (getTotalSize objNum objSize useSlot) objNum prot fd).drop 7 ++
      slotInit (getTotalSize objNum objSize useSlot) objNum useSlot,
      164 ≤ x.area.1 ∨ x.area.1 + x.area.2 ≤ 152 := by
    intro x hx
    rcases List.mem_append.1 hx with hx | hx
    · simp only [headerStores, List.drop_succ_cons, List.drop_zero, List.mem_cons,
        List.not_mem_nil, or_false] at hx
      rcases hx with rfl | rfl <;> simp [Store.area, Field.offset, bufferOffsetAt]
    · exact slotInit_area hx
  unfold HeaderSays
  rw [hk, ← hprot]
  constructor
  · exact load_storeData_int ((headerStores _ objNum prot fd).take 6) fun x hx =>
      (hpost x hx).imp_right fun h => Nat.le_trans h (by decide)
  · refine load_storeData_mem ((headerStores _ objNum prot fd).take 5) fun x hx => ?_
    rcases List.mem_cons.1 hx with rfl | hx
    · exact .inl (Nat.le_refl 160)
    · exact (hpost x hx).imp_left fun h => Nat.le_trans (by decide) h

/-- The header that `get_block_buf` leaves. -/
theorem blockStores_says {objNum objSize : SizeT} {prot fd : CInt}
    (hprot : mapType prot = mapShm) (d : Data) :
    HeaderSays .block (storeData d (blockStores objNum objSize prot fd))
      (blockTotalSize objNum objSize) := by
  unfold HeaderSays
  rw [← hprot]
  constructor
  · refine load_storeData_int ((blockStores objNum objSize prot fd).take 6) fun x hx => ?_
    obtain rfl := List.mem_singleton.1 hx
    exact .inl (Nat.le_refl 356)
  · refine load_storeData_mem ((blockStores objNum objSize prot fd).take 5) fun x hx => ?_
    rcases List.mem_cons.1 hx with rfl | hx
    · exact .inl (Nat.le_refl 352)
    · obtain rfl := List.mem_singleton.1 hx
      exact .inl (show 352 ≤ 356 by decide)

theorem storeData_says {a : Args Path} (huse : useMalloc a.prot = false) (k : Kind) (fd : CInt)
    (d : Data) :
    HeaderSays k (storeData d (k.ctor.stores a fd)) (k.ctor.totalSize a.objNum a.objSize) := by
  have hprot : mapType a.prot = mapShm := by rw [mapType, huse]; rfl
  cases k with
  | block => exact blockStores_says hprot d
  | _ => exact ringStores_says hprot rfl d

/-! ## The header in memory and in the file -/

namespace Os

/-- Memory of the process starts at `p`. -/
def Owned (s : Os Path) (p : Addr) : Prop := (s.proc.heap p).isSome ∨ (s.proc.maps p).isSome

theorem data_write_self (h : s.Owned p) (a n : Nat) (image : Data) :
    (s.write p a n image).data p = blit (s.data p) a n image := by
  unfold write
  split
  case h_1 hp => simp [data, setHeap, hp]
  case h_2 f hp hm => simp [data, setFile, hp, hm]
  case h_3 f copy hp hm =>
    funext i
    simp only [data, setMap, hp, hm, Function.update_self, blit]
    split_ifs <;> rfl
  case h_4 d hp hm => simp [data, setMap, hp, hm]
  case h_5 hp hm =>
    exfalso
    unfold Owned at h
    rw [hp, hm] at h
    rcases h with h | h <;> cases h

theorem Owned.kept {s' : Os Path} (h : s.Owned p) (hk : Kept s s') : s'.Owned p := by
  unfold Owned
  rw [hk.heap, hk.maps]
  exact h

theorem data_stores (h : s.Owned p) (xs : List Store) :
    (s.stores p xs).data p = storeData (s.data p) xs := by
  induction xs generalizing s with
  | nil => rfl
  | cons x xs ih =>
    cases x with
    | size a v =>
      refine (ih (h.kept (kept_write ..))).trans ?_
      rw [data_write_self h]
      rfl
    | int a v =>
      refine (ih (h.kept (kept_write ..))).trans ?_
      rw [data_write_self h]
      rfl

end Os

/-! ## What is mapped, and what is unmapped -/

/-- The length that a call passes to `mmap`. -/
def mmapLen : ((o : SysOp Path) × o.Res) → Option SizeT
  | ⟨.mmap len _ _, _⟩ => some len
  | _ => none

/-- The pointer and the length that a call passes to `munmap`. -/
def munmapArgs : ((o : SysOp Path) × o.Res) → Option (Addr × SizeT)
  | ⟨.munmap p len, _⟩ => some (p, len)
  | _ => none

variable [DecidableEq Path] {env : Env}

/-- What is read off the calls that a program makes, in their order. -/
def calls {α β : Type} (f : ((o : SysOp Path) × o.Res) → Option β) (env : Env)
    (x : SysProg Path α) (s : Os Path) : List β :=
  (x.log (exec env) s).filterMap f

theorem calls_bind {α β γ : Type} (f : ((o : SysOp Path) × o.Res) → Option γ)
    (x : SysProg Path α) (k : α → SysProg Path β) :
    calls f env (x >>= k) s =
      calls f env x s ++ calls f env (k (x.run (exec env) s).1) (x.run (exec env) s).2 := by
  unfold calls
  rw [Prog.log_bind, List.filterMap_append]

theorem calls_storeAll (xs : List Store) : calls mmapLen env (storeAll p xs) s = [] := by
  induction xs generalizing s with
  | nil => rfl
  | cons x xs ih => cases x <;> exact ih

theorem calls_initSync : calls mmapLen env (initSync p) s = [] := by
  have hinit : ∀ (x : Sync) (k : CInt → SysProg Path Bool),
      (∀ rc s, calls mmapLen env (k rc) s = []) →
      ∀ s, calls mmapLen env (syncInit p x >>= k) s = [] := by
    intro x k hk s
    rw [calls_bind, hk]
    rfl
  refine hinit .mtx _ (fun rc s => ?_) s
  split_ifs
  · rfl
  · refine hinit .writeable _ (fun rc s => ?_) s
    split_ifs
    · rfl
    · refine hinit .readable _ (fun rc s => ?_) s
      split_ifs <;> rfl

section Map

variable {hugeSize : SizeT → SizeT} {totalSz : SizeT} {prot flag : CInt} {shmPath : Option Path}

theorem calls_openShm : calls mmapLen env (openShm shmPath) s = [] := by
  cases shmPath <;> rfl

theorem calls_mapShmFile {len : SizeT} {fd : CInt} :
    calls mmapLen env (mapShmFile len fd flag) s = [len] := by
  have hmap : ∀ flag, calls mmapLen env (mmap len flag fd) s = [len] := fun _ => rfl
  unfold mapShmFile
  rw [calls_bind, hmap]
  generalize Prog.run _ _ _ = x
  obtain ⟨r, s'⟩ := x
  cases r <;> rfl

/-- `get_buf_shm` that returns a pointer has mapped once. -/
theorem calls_getBufShm {new : Bool}
    (h : ((getBufShm hugeSize totalSz prot flag shmPath new).run (exec env) s).1.isSome) :
    calls mmapLen env (getBufShm hugeSize totalSz prot flag shmPath new) s =
      [mapLen hugeSize totalSz flag] := by
  have htrunc : ∀ fd len (s : Os Path), calls mmapLen env (ftruncate fd len) s = [] :=
    fun _ _ _ => rfl
  have hstat : ∀ fd (s : Os Path), calls mmapLen env (fstat fd) s = [] := fun _ _ => rfl
  unfold getBufShm at h ⊢
  by_cases hpath : (!new && shmPath.isNone) = true
  · rw [if_pos hpath] at h
    cases h
  rw [if_neg hpath] at h ⊢
  rw [Prog.run_bind] at h
  rw [calls_bind, calls_openShm, List.nil_append]
  generalize (openShm shmPath).run (exec env) s = x at h ⊢
  obtain ⟨fd, s'⟩ := x
  by_cases hfd : fd.slt 0 = true
  · simp only [hfd, if_true] at h
    cases h
  simp only [hfd, Bool.false_eq_true, if_false] at h ⊢
  cases new with
  | true =>
    simp only [if_true] at h ⊢
    rw [Prog.run_bind] at h
    rw [calls_bind, htrunc, List.nil_append]
    generalize Prog.run (exec env) (ftruncate fd _) s' = x at h ⊢
    obtain ⟨rc, s'⟩ := x
    by_cases hrc : rc.slt 0 = true
    · simp only [hrc, if_true] at h
      cases h
    · simp only [hrc, Bool.false_eq_true, if_false]
      exact calls_mapShmFile
  | false =>
    simp only [Bool.false_eq_true, if_false] at h ⊢
    by_cases hexist : has prot mapExists = true
    · simp only [hexist, if_true] at h ⊢
      rw [Prog.run_bind] at h
      rw [calls_bind, hstat, List.nil_append]
      generalize Prog.run (exec env) (fstat fd) s' = x at h ⊢
      obtain ⟨st, s'⟩ := x
      cases st with
      | none => cases h
      | some size =>
        by_cases h₀ : size = 0
        · simp only [h₀, if_true] at h
          cases h
        by_cases hne : size ≠ if has mapHugetlb flag then hugeSize totalSz else totalSz
        · simp only [h₀, if_false] at h
          rw [if_pos hne] at h
          cases h
        · simp only [h₀, if_false]
          rw [if_neg hne]
          exact calls_mapShmFile
    · simp only [hexist, Bool.false_eq_true, if_false]
      exact calls_mapShmFile

theorem calls_ringMemory (huse : useMalloc prot = false)
    (h : ((ringMemory hugeSize totalSz shmPath prot flag).run (exec env) s).1.isSome) :
    calls mmapLen env (ringMemory hugeSize totalSz shmPath prot flag) s =
      [mapLen hugeSize totalSz flag] := by
  unfold ringMemory at h ⊢
  by_cases hmap : (!has prot (mapMalloc ||| mapShm)) = true
  · rw [if_pos hmap] at h
    cases h
  · simp only [if_neg hmap, huse, Bool.false_eq_true, if_false] at h ⊢
    exact calls_getBufShm h

theorem calls_construct {a : Args Path} {c : Ctor} (huse : useMalloc a.prot = false)
    (h : ((construct hugeSize a c).run (exec env) s).1.isSome) :
    calls mmapLen env (construct hugeSize a c) s =
      [mapLen hugeSize (c.totalSize a.objNum a.objSize) a.flag] := by
  -- Once it has its memory, a constructor maps nothing.
  have hmem : ∀ (totalSz : SizeT) (k : Option (Addr × CInt) → SysProg Path (Option Addr)),
      (∀ s, ((k none).run (exec env) s).1 = none) →
      (∀ m s, calls mmapLen env (k (some m)) s = []) →
      ((ringMemory hugeSize totalSz a.shmPath a.prot a.flag >>= k).run (exec env) s).1.isSome →
      calls mmapLen env (ringMemory hugeSize totalSz a.shmPath a.prot a.flag >>= k) s =
        [mapLen hugeSize totalSz a.flag] := by
    intro totalSz k hnone hquiet h
    have hsome : ((ringMemory hugeSize totalSz a.shmPath a.prot a.flag).run (exec env) s).1.isSome →
        calls mmapLen env (ringMemory hugeSize totalSz a.shmPath a.prot a.flag) s =
          [mapLen hugeSize totalSz a.flag] := calls_ringMemory huse
    rw [Prog.run_bind] at h
    rw [calls_bind]
    generalize (ringMemory hugeSize totalSz a.shmPath a.prot a.flag).run (exec env) s = x
      at h hsome ⊢
    obtain ⟨m, s'⟩ := x
    cases m with
    | none =>
      rw [hnone] at h
      cases h
    | some m => rw [hsome rfl, hquiet, List.append_nil]
  cases c with
  | ring useSlot =>
    simp only [construct, getBuf] at h ⊢
    by_cases hcap : capacityWrong a.objNum = true
    · simp only [hcap, if_true] at h
      cases h
    by_cases hna : useSlotNa useSlot = true
    · simp only [hcap, hna, Bool.false_eq_true, if_true, if_false] at h
      cases h
    simp only [hcap, hna, Bool.false_eq_true, if_false] at h ⊢
    refine hmem _ _ (fun _ => rfl) (fun m s => ?_) h
    dsimp only
    split_ifs
    · rw [calls_bind, calls_storeAll]
      rfl
    · rfl
  | block =>
    simp only [construct, getBlockBuf] at h ⊢
    by_cases hcap : capacityWrong a.objNum = true
    · simp only [hcap, if_true] at h
      cases h
    simp only [hcap, Bool.false_eq_true, if_false] at h ⊢
    refine hmem _ _ (fun _ => rfl) (fun m s => ?_) h
    dsimp only
    split_ifs
    · rw [calls_bind, calls_initSync]
      generalize Prog.run _ _ _ = x
      obtain ⟨ok, s'⟩ := x
      cases ok with
      | true =>
        simp only [if_true]
        rw [calls_bind, calls_storeAll]
        rfl
      | false => rfl
    · rfl

end Map

/-- What a destructor unmaps stands in the header. -/
theorem calls_release (offset : Field → Nat) : calls munmapArgs env (release offset p) s =
    if s.int p (offset .mapType) = mapShm then [(p, s.word p (offset .totalSize))] else [] := by
  unfold release
  rw [calls_bind]
  show [] ++ calls munmapArgs env (ite (s.int p (offset .mapType) = mapShm) _ _) s = _
  split_ifs with hshm
  · have hclose : ∀ fd, (exec env (.close fd) s).2.word p (offset .totalSize) =
        s.word p (offset .totalSize) := by
      intro fd
      simp only [exec]
      split_ifs <;> rfl
    rw [← hclose (s.int p (offset .fd))]
    rfl
  · rfl
  · rfl

theorem calls_delRingBuf (k : Kind) : calls munmapArgs env (delRingBuf (some p) k) s =
    if s.int p (k.offset .mapType) = mapShm then [(p, s.word p (k.offset .totalSize))]
    else [] := by
  cases k with
  | block =>
    have hint : (s.syncDestroyed env p).int p (Field.blockOffset .mapType) =
        s.int p (Field.blockOffset .mapType) := Os.load_syncDestroyed env p s (by decide)
    have hword : (s.syncDestroyed env p).word p (Field.blockOffset .totalSize) =
        s.word p (Field.blockOffset .totalSize) := Os.load_syncDestroyed env p s (by decide)
    rw [show s.int p (Kind.block.offset .mapType) = _ from hint.symm,
      show s.word p (Kind.block.offset .totalSize) = _ from hword.symm]
    exact calls_release Field.blockOffset
  | _ => exact calls_release Field.offset

theorem calls_del_iff (k : Kind) {len : SizeT} :
    calls munmapArgs env (delRingBuf (some p) k) s = [(p, len)] ↔
      HeaderSays k (s.data p) len := by
  rw [calls_delRingBuf]
  unfold HeaderSays
  split_ifs with hshm
  · simp only [List.cons.injEq, Prod.mk.injEq, true_and, and_true]
    exact (and_iff_right hshm).symm
  · exact iff_of_false (fun h => nomatch h) fun h => hshm h.1

/-! ## Creating and attaching -/

section Get

variable {hugeSize : SizeT → SizeT} {a : Args Path} {k : Kind} {s' : Os Path}

/-- The file that opening `path` gives access to, before it is sized. -/
def Os.foundFile (s : Os Path) (path : Option Path) : File :=
  (s.provide path).files.file (s.target path)

/-- The length of the mapping of a ring. -/
def Args.len (hugeSize : SizeT → SizeT) (a : Args Path) (k : Kind) : SizeT :=
  mapLen hugeSize (k.ctor.totalSize a.objNum a.objSize) a.flag

/-- The memory of a new ring, before anything is stored there. -/
def Os.fresh (s : Os Path) (hugeSize : SizeT → SizeT) (a : Args Path) (k : Kind) (fd : CInt)
    (p : Addr) : Os Path :=
  ((s.opened a.shmPath fd).sized (s.target a.shmPath) (a.len hugeSize k) true).setMap p
    (some (backing (mapFlag a.flag) (s.target a.shmPath)))

/-- How a new ring comes about. -/
theorem GetExit.fresh (h : GetExit hugeSize env a s k.ctor (some p) s')
    (huse : useMalloc a.prot = false) (hnew : needNew a.prot = true) :
    ∃ fd, s.proc.heap p = none ∧
      s' = (k.ctor.prepared env (s.fresh hugeSize a k fd p) p).stores p (k.ctor.stores a fd) := by
  cases h with
  | attached _ _ _ hn => cases hnew.symm.trans hn
  | created _ _ hm =>
    cases hm with
    | malloc _ h => cases huse.symm.trans h
    | shm _ _ hm =>
      rw [hnew] at hm
      cases hm with
      | mapped _ _ hm => exact ⟨_, (Proc.newAddr_ok (Proc.newMap_ok hm).2).1, rfl⟩

omit [DecidableEq Path] in
theorem kept_prepared (env : Env) (s : Os Path) (p : Addr) : Kept s (k.ctor.prepared env s p) := by
  cases k with
  | block => exact Os.kept_synced ..
  | _ => exact .refl s

/-- The header of a new ring, as its process sees it. -/
theorem GetExit.data_says (h : GetExit hugeSize env a s k.ctor (some p) s')
    (huse : useMalloc a.prot = false) (hnew : needNew a.prot = true) :
    HeaderSays k (s'.data p) (k.ctor.totalSize a.objNum a.objSize) := by
  obtain ⟨fd, -, rfl⟩ := h.fresh huse hnew
  have howned : (s.fresh hugeSize a k fd p).Owned p := .inr (by simp [Os.fresh, Os.setMap])
  rw [Os.data_stores (howned.kept (kept_prepared ..))]
  exact storeData_says huse k fd _

/-- The file of a new ring: it has the header if the mapping is shared, else what was there
before. -/
theorem GetExit.file_says (h : GetExit hugeSize env a s k.ctor (some p) s')
    (huse : useMalloc a.prot = false) (hnew : needNew a.prot = true) :
    (backing (mapFlag a.flag) (s.target a.shmPath) = .shared (s.target a.shmPath) →
      HeaderSays k (s'.files.file (s.target a.shmPath)).data
        (k.ctor.totalSize a.objNum a.objSize)) ∧
    (backing (mapFlag a.flag) (s.target a.shmPath) ≠ .shared (s.target a.shmPath) →
      s'.files.file (s.target a.shmPath) =
        (s.foundFile a.shmPath).resize (a.len hugeSize k)) := by
  obtain ⟨fd, hheap, rfl⟩ := h.fresh huse hnew
  have hheap' : ((s.opened a.shmPath fd).sized (s.target a.shmPath) (a.len hugeSize k)
      true).proc.heap p = none := by
    rw [Os.sized_proc, Os.opened_heap, hheap]
  obtain ⟨hb, hshared⟩ | ⟨hb, hiso⟩ :=
    mapped_memory (f := s.target a.shmPath) (mapFlag a.flag) hheap'
  · refine ⟨fun _ => ?_, fun hn => absurd hb hn⟩
    have hprep : (k.ctor.prepared env (s.fresh hugeSize a k fd p) p).SharedAt p
        (s.target a.shmPath) := by
      cases k with
      | block => exact (hshared.synced env).1
      | _ => exact hshared
    rw [(hprep.stores _).2]
    exact storeData_says huse k fd _
  · refine ⟨fun h => absurd h hb, fun _ => ?_⟩
    have hprep : (k.ctor.prepared env (s.fresh hugeSize a k fd p) p).Isolated p ∧
        (k.ctor.prepared env (s.fresh hugeSize a k fd p) p).files =
          (s.fresh hugeSize a k fd p).files := by
      cases k with
      | block => exact hiso.synced env
      | _ => exact ⟨hiso, rfl⟩
    rw [hprep.1.stores, hprep.2]
    show ((s.opened a.shmPath fd).sized _ _ true).files.file _ = _
    rw [Os.file_sized]
    rfl

theorem GetExit.named (h : GetExit hugeSize env a s k.ctor (some p) s')
    (huse : useMalloc a.prot = false) (hnew : needNew a.prot = true) {path : Path}
    (hpath : a.shmPath = some path) : s'.files.named path = some (s.target a.shmPath) := by
  obtain ⟨fd, -, rfl⟩ := h.fresh huse hnew
  refine (congrFun ((kept_prepared ..).trans (Os.kept_stores ..)).named path).trans ?_
  show (Os.sized _ _ _ _).files.named path = _
  rw [Os.sized_named, Os.opened_files, hpath]
  cases hname : s.files.named path with
  | none => rw [provide_named_of_none hname, target_of_none hname]
  | some f => rw [provide_of_named hname, target_of_named hname, hname]

theorem GetExit.attached_data (h : GetExit hugeSize env a s k.ctor (some p) s')
    (huse : useMalloc a.prot = false) (hold : needNew a.prot = false) {path : Path} {f : FileId}
    (hpath : a.shmPath = some path) (hname : s.files.named path = some f) :
    s'.data p = if has (mapFlag a.flag) mapAnonymous then fun _ => 0
      else (s.files.file f).data := by
  cases h with
  | created _ _ _ hn => cases hold.symm.trans hn
  | attached _ _ hm =>
    cases hm with
    | malloc _ h => cases huse.symm.trans h
    | shm _ _ hm =>
      rw [hold, hpath] at hm
      cases hm with
      | mapped _ _ hm =>
        have hheap := (Proc.newAddr_ok (Proc.newMap_ok hm).2).1
        rw [target_of_named hname]
        unfold backing
        split_ifs <;> simp [Os.data, Os.setMap, Os.sized, hheap, provide_of_named hname]

end Get

/-! ## The whole mapping -/

section Whole

variable {hugeSize : SizeT → SizeT} {a : Args Path} {k : Kind} {s' : Os Path}

/-- The total size that a constructor computes. -/
def Args.total (a : Args Path) (k : Kind) : Nat := (k.ctor.totalSize a.objNum a.objSize).toNat

/-- The length that the mapping of a ring should have. -/
def Args.IsLen (a : Args Path) (k : Kind) (len : SizeT) : Prop :=
  if has mapHugetlb a.flag then IsLeast {n | hugepageSize ∣ n ∧ a.total k ≤ n} len.toNat
  else len.toNat = a.total k

/-- A ring is mapped once, in `s`, and its deletion in `s'` unmaps the whole mapping. -/
def UnmapsWhole (hugeSize : SizeT → SizeT) (env : Env) (a : Args Path) (k : Kind) (s : Os Path)
    (p : Addr) (env' : Env) (s' : Os Path) : Prop :=
  ∃ len, calls mmapLen env (getRingBuf hugeSize a k) s = [len] ∧ a.IsLen k len ∧
    calls munmapArgs env' (delRingBuf (some p) k) s' = [(p, len)]

/-- Nothing had to be rounded up. -/
def Args.Even (a : Args Path) (k : Kind) : Prop :=
  has mapHugetlb a.flag = false ∨ hugepageSize ∣ a.total k

/-- A call with `MAP_SHM` returns the ring `p`. -/
structure Gets (hugeSize : SizeT → SizeT) (env : Env) (a : Args Path) (k : Kind) (s : Os Path)
    (p : Addr) (s' : Os Path) : Prop where
  shm : has a.prot mapShm = true
  noMalloc : has a.prot mapMalloc = false
  run : (getRingBuf hugeSize a k).run (exec env) s = (some p, s')

theorem Gets.exit (h : Gets hugeSize env a k s p s') :
    GetExit hugeSize env a s k.ctor (some p) s' := by
  have hexit := run_construct hugeSize env a s k.ctor
  rw [← getRingBuf_eq, h.run] at hexit
  exact hexit

section Exact

variable (hexact : ExactHuge hugeSize)
  (hsmall : has mapHugetlb a.flag = true → a.total k < 2 ^ 53)
include hexact hsmall

omit [DecidableEq Path] in
theorem isLen_len : a.IsLen k (a.len hugeSize k) := by
  unfold Args.IsLen Args.len mapLen
  split_ifs with hhuge
  · rw [hexact.toNat (hsmall hhuge)]
    exact isLeast_hugePages _
  · rfl

omit [DecidableEq Path] in
theorem len_eq_iff : a.len hugeSize k = k.ctor.totalSize a.objNum a.objSize ↔ a.Even k := by
  unfold Args.Even Args.len mapLen
  cases hhuge : has mapHugetlb a.flag with
  | false => simp
  | true =>
    simp only [if_true, Bool.true_eq_false, false_or]
    rw [← BitVec.toNat_inj, hexact.toNat (hsmall hhuge)]
    exact hugePages_eq_iff

/-- The whole mapping is unmapped just when the header says so. -/
theorem Gets.whole_iff (h : Gets hugeSize env a k s p s') {env' : Env} {s'' : Os Path} :
    UnmapsWhole hugeSize env a k s p env' s'' ↔
      HeaderSays k (s''.data p) (a.len hugeSize k) := by
  have hmap : calls mmapLen env (getRingBuf hugeSize a k) s = [a.len hugeSize k] := by
    have hrun := h.run
    rw [getRingBuf_eq] at hrun ⊢
    exact calls_construct (shm_prot h.shm h.noMalloc).2.1 (by rw [hrun]; rfl)
  unfold UnmapsWhole
  rw [hmap]
  constructor
  · intro ⟨len, hlen, _, hdel⟩
    obtain rfl : a.len hugeSize k = len := List.singleton_injective hlen
    exact (calls_del_iff k).1 hdel
  · intro hsays
    exact ⟨_, rfl, isLen_len hexact hsmall, (calls_del_iff k).2 hsays⟩

end Exact

/-- Since the state `s`, the ring at `path` has been used, and the fields that a destructor unmaps
by are as they were. -/
structure Used (k : Kind) (path : Path) (s s' : Os Path) : Prop where
  named : s'.files.named path = s.files.named path
  header : ∀ f, s.files.named path = some f →
    SameHeader k (s.files.file f).data (s'.files.file f).data

/-- A process that attaches sees the length of the mapping in the header: the creator's stores
have gone to the file, and nothing had to be rounded; or they have not, and such a header was there
before. -/
def ShowsLen (hugeSize : SizeT → SizeT) (a : Args Path) (k : Kind) (s : Os Path) : Prop :=
  has (mapFlag a.flag) mapAnonymous = false ∧
    if has (mapFlag a.flag) mapShared then a.Even k
    else HeaderSays k ((s.foundFile a.shmPath).resize (a.len hugeSize k)).data
      (a.len hugeSize k)

/-- The header in the file of a new ring says how long the mapping is. -/
theorem Gets.file_says_iff (hexact : ExactHuge hugeSize)
    (hsmall : has mapHugetlb a.flag = true → a.total k < 2 ^ 53)
    (h : Gets hugeSize env a k s p s') (hnew : needNew a.prot = true)
    (hanon : has (mapFlag a.flag) mapAnonymous = false) :
    HeaderSays k (s'.files.file (s.target a.shmPath)).data (a.len hugeSize k) ↔
      if has (mapFlag a.flag) mapShared then a.Even k
      else HeaderSays k ((s.foundFile a.shmPath).resize (a.len hugeSize k)).data
        (a.len hugeSize k) := by
  obtain ⟨hshared, hpriv⟩ := h.exit.file_says (shm_prot h.shm h.noMalloc).2.1 hnew
  unfold backing at hshared hpriv
  rw [hanon] at hshared hpriv
  cases hsh : has (mapFlag a.flag) mapShared with
  | true =>
    simp only [hsh, Bool.false_eq_true, if_true, if_false] at hshared ⊢
    rw [← len_eq_iff hexact hsmall]
    have hsays := hshared trivial
    refine ⟨fun hlen => hlen.2.symm.trans hsays.2, fun hlen => ?_⟩
    rw [hlen]
    exact hsays
  | false =>
    simp only [hsh, Bool.false_eq_true, if_false] at hpriv ⊢
    rw [hpriv fun h => nomatch h]

/-- A ring is mapped with a length that is rounded up to whole huge pages, and unmapped with the
length before rounding. -/
theorem unmaps_whole_iff (hexact : ExactHuge hugeSize)
    (hsmall : has mapHugetlb a.flag = true → a.total k < 2 ^ 53)
    (hget : Gets hugeSize env a k s p s') (hnew : has a.prot mapExists = false) :
    (∀ env' s₂, SameHeader k (s'.data p) (s₂.data p) →
      (UnmapsWhole hugeSize env a k s p env' s₂ ↔ a.Even k)) ∧
    ∀ path prot s₂ env' p' s₃ env'' s₄, a.shmPath = some path → Used k path s' s₂ →
      has prot mapExists = true → Gets hugeSize env' { a with prot := prot } k s₂ p' s₃ →
      SameHeader k (s₃.data p') (s₄.data p') →
      (UnmapsWhole hugeSize env' { a with prot := prot } k s₂ p' env'' s₄ ↔
        ShowsLen hugeSize a k s) := by
  obtain ⟨-, huse, hneed⟩ := shm_prot hget.shm hget.noMalloc
  have hneed' : needNew a.prot = true := by rw [hneed, hnew]; rfl
  constructor
  · intro env' s₂ hsame
    rw [hget.whole_iff hexact hsmall, hsame.says_iff, ← len_eq_iff hexact hsmall]
    have hsays := hget.exit.data_says huse hneed'
    refine ⟨fun hlen => hlen.2.symm.trans hsays.2, fun hlen => ?_⟩
    rw [hlen]
    exact hsays
  · intro path prot s₂ env' p' s₃ env'' s₄ hpath hused hexist hattach hsame
    obtain ⟨-, huse', hneed''⟩ := shm_prot hattach.shm hattach.noMalloc
    rw [hexist] at hneed''
    have hname := hget.exit.named huse hneed' hpath
    have hdata := hattach.exit.attached_data huse' hneed'' hpath (hused.named.trans hname)
    refine (Gets.whole_iff (a := { a with prot := prot }) hexact hsmall hattach).trans ?_
    rw [hsame.says_iff, hdata]
    show HeaderSays k _ (a.len hugeSize k) ↔ _
    unfold ShowsLen
    cases hanon : has (mapFlag a.flag) mapAnonymous with
    | true =>
      -- An anonymous mapping is new, and its header says that it is no mapping.
      simp only [Bool.true_eq_false, false_and, iff_false, if_true]
      intro hsays
      exact absurd hsays.1 (by cases k <;> decide)
    | false =>
      simp only [Bool.false_eq_true, if_false, true_and]
      rw [(hused.header _ hname).says_iff]
      exact hget.file_says_iff hexact hsmall hneed' hanon

end Whole

/-! ## A ring of two objects -/

/-- The exact computation. -/
def exactHuge (x : SizeT) : SizeT := .ofNat 64 (hugePages x.toNat)

/-- After the ring has been created with some flags. -/
def created (flag : CInt) : Os Unit :=
  ((getRingBuf exactHuge { creating with flag := flag } .spsc).run (exec .smooth) .boot).2

theorem created_gets {flag : CInt} (h : flag = 0 ∨ flag = mapHugetlb) :
    Gets exactHuge .smooth { creating with flag := flag } .spsc .boot 1 (created flag) := by
  rcases h with rfl | rfl
  · exact ⟨rfl, rfl, rfl⟩
  · exact ⟨rfl, rfl, rfl⟩

/-- Another process, after the ring has been created. -/
def another (flag : CInt) : Os Unit := ⟨(created flag).files, (Os.boot : Os Unit).proc⟩

/-- It has attached. -/
def attached (flag : CInt) : Os Unit :=
  ((getRingBuf exactHuge { attaching with flag := flag } .spsc).run (exec .smooth)
    (another flag)).2

theorem attached_gets {flag : CInt} (h : flag = 0 ∨ flag = mapHugetlb) :
    Gets exactHuge .smooth { attaching with flag := flag } .spsc (another flag) 1
      (attached flag) := by
  rcases h with rfl | rfl
  · exact ⟨rfl, rfl, rfl⟩
  · exact ⟨rfl, rfl, rfl⟩

/-- Without huge pages, in both processes. -/
theorem unmaps_whole_plain :
    (UnmapsWhole exactHuge .smooth { creating with flag := 0 } .spsc .boot 1 .smooth (created 0) ↔
      Args.Even { creating with flag := 0 } .spsc) ∧
    (UnmapsWhole exactHuge .smooth { attaching with flag := 0 } .spsc (another 0) 1 .smooth
      (attached 0) ↔ ShowsLen exactHuge { creating with flag := 0 } .spsc .boot) := by
  obtain ⟨hcreator, hattach⟩ := unmaps_whole_iff (fun _ _ => rfl)
    (fun h => absurd h (by decide)) (created_gets (.inl rfl)) rfl
  exact ⟨hcreator .smooth _ ⟨rfl, rfl⟩, hattach () (mapShm ||| mapExists) _ .smooth 1 _ .smooth _
    rfl ⟨rfl, fun _ _ => ⟨rfl, rfl⟩⟩ rfl (attached_gets (.inl rfl)) ⟨rfl, rfl⟩⟩

/-- With huge pages two megabytes are mapped and 320 bytes are unmapped, in both processes. -/
theorem unmaps_part :
    (Gets exactHuge .smooth { creating with flag := mapHugetlb } .spsc .boot 1
        (created mapHugetlb) ∧
      calls munmapArgs .smooth (delRingBuf (some 1) .spsc) (created mapHugetlb) = [(1, 320)] ∧
      ¬UnmapsWhole exactHuge .smooth { creating with flag := mapHugetlb } .spsc .boot 1 .smooth
        (created mapHugetlb)) ∧
    Gets exactHuge .smooth { attaching with flag := mapHugetlb } .spsc (another mapHugetlb) 1
      (attached mapHugetlb) ∧
    calls munmapArgs .smooth (delRingBuf (some 1) .spsc) (attached mapHugetlb) = [(1, 320)] ∧
    ¬UnmapsWhole exactHuge .smooth { attaching with flag := mapHugetlb } .spsc (another mapHugetlb)
      1 .smooth (attached mapHugetlb) := by
  have hmap : calls mmapLen .smooth
      (getRingBuf exactHuge { creating with flag := mapHugetlb } .spsc)
      (.boot : Os Unit) = [2 * 1024 * 1024] := rfl
  have hmap' : calls mmapLen .smooth
      (getRingBuf exactHuge { attaching with flag := mapHugetlb } .spsc) (another mapHugetlb) =
        [2 * 1024 * 1024] := rfl
  have hdel : calls munmapArgs .smooth (delRingBuf (some 1) .spsc) (created mapHugetlb) =
      [(1, 320)] := rfl
  have hdel' : calls munmapArgs .smooth (delRingBuf (some 1) .spsc) (attached mapHugetlb) =
      [(1, 320)] := rfl
  refine ⟨⟨created_gets (.inr rfl), hdel, ?_⟩, attached_gets (.inr rfl), hdel', ?_⟩
  · intro ⟨len, hlen, _, hun⟩
    rw [hmap] at hlen
    obtain rfl := List.singleton_injective hlen
    rw [hdel] at hun
    exact absurd hun (by decide)
  · intro ⟨len, hlen, _, hun⟩
    rw [hmap'] at hlen
    obtain rfl := List.singleton_injective hlen
    rw [hdel'] at hun
    exact absurd hun (by decide)

end Setup

end RingBuf
