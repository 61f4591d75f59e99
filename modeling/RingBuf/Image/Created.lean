import RingBuf.Image.Code

/-!
# The bytes that `get_buf` leaves

The stores of `get_buf` do not overlap, so that every one of them is found later: the constants of
the header (`formatted`), the counters (`head_created`, `tail_created`), and the slot words
(`slot_created`).
-/

namespace RingBuf

open Conc Word Bytes

namespace Setup

variable {g : Geometry} {d : Data} {prot fd : CInt}

/-- Words stored apart from each other are all found. -/
theorem load_storeData_range (a : Nat → Nat) (v : Nat → SizeT) {n : Nat}
    (hapart : ∀ i < n, ∀ j < n, i ≠ j → a i + 8 ≤ a j ∨ a j + 8 ≤ a i) {i : Nat} (hi : i < n) :
    load 8 (storeData d ((List.range n).map fun i => .size (a i) (v i))) (a i) = v i := by
  induction n with
  | zero => omega
  | succ n ih =>
    rw [List.range_succ, List.map_append, storeData_append]
    show load 8 (store (n := 8) _ (a n) (v n)) (a i) = v i
    by_cases hin : i = n
    · rw [hin]
      exact load_store_self (n := 8) _
    · rw [load_store_of_disjoint (n := 8) (m := 8) (hapart i hi n (by omega) hin)]
      exact ih (fun i hi j hj => hapart i (by omega) j (by omega)) (by omega)

/-- The slot words after `get_buf`. -/
theorem load_slot (h : g.Valid) (hs : hasSlots g.kind = true) {i : Nat} (hi : i < g.objNum.toNat) :
    load 8 (storeData d (ringStores g.info g.objNum (slotFlag g.kind) prot fd))
      (192 + g.objNum.toNat * lines g.objSize.toNat + i * 64) =
        slotValue g.kind (.ofNat 64 i) := by
  have hslots : slotInit g.info g.objNum (slotFlag g.kind) =
      .size slotOffsetAt g.info.slotOffS :: (List.range g.objNum.toNat).map fun i =>
        .size (192 + g.objNum.toNat * lines g.objSize.toNat + i * 64)
          (slotValue g.kind (.ofNat 64 i)) := by
    rw [slotInit_slots hs, slotStores]
    congr 1
    apply List.map_congr_left
    intro i hi
    rw [Geometry.toNat_slot h hs (List.mem_range.1 hi)]
  rw [ringStores, hslots, storeData_append]
  exact load_storeData_range (fun i => 192 + g.objNum.toNat * lines g.objSize.toNat + i * 64)
    (fun i => slotValue g.kind (.ofNat 64 i)) (fun i _ j _ hij => by omega) hi

theorem load_slotOffset (h : g.Valid) (hs : hasSlots g.kind = true) :
    load 8 (storeData d (ringStores g.info g.objNum (slotFlag g.kind) prot fd)) slotOffsetAt =
      g.info.slotOffS := by
  rw [ringStores, slotInit_slots hs]
  apply load_storeData_mem (headerStores g.info g.objNum prot fd)
  intro x hx
  obtain ⟨i, hi, rfl⟩ := List.mem_map.1 hx
  exact .inl (Nat.le_trans (by decide) (Geometry.le_slot h hs (List.mem_range.1 hi)))

end Setup

/-! ## The ring they hold -/

section Ring

open Setup (Geometry Field Store hasSlots lines cacheLineSize sizeofRingBuf bufferOffsetAt
  storeData ringStores headerStores slotFlag slotValue getTotalSize load_header load_slot
  load_slotOffset load_ringStores)

variable {g : Geometry} {r : Ring SizeT}

theorem objNum_of_getBufRing (h : getBufRing g.objNum g.objSize = some r) :
    r.objNum = g.objNum ∧ r.mask = g.objNum - 1 ∧
      r.objSize = (getAlignedOffset g.objSize cacheLineSize).toNat := by
  unfold getBufRing at h
  split at h
  case isTrue => exact Option.some.inj h ▸ ⟨rfl, rfl, rfl⟩
  case isFalse => cases h

variable (hg : g.Valid) (hr : getBufRing g.objNum g.objSize = some r)
include hg hr

theorem cap_mul_objSize :
    r.cap = g.objNum.toNat ∧ r.cap * r.objSize = g.objNum.toNat * lines g.objSize.toNat := by
  obtain ⟨hnum, -, hsize⟩ := objNum_of_getBufRing hr
  have hcap : r.cap = g.objNum.toNat := congrArg BitVec.toNat hnum
  rw [hcap, hsize, Geometry.toNat_alignedObjSize hg]
  exact ⟨rfl, rfl⟩

namespace Image

theorem total_eq : total g r = g.total := by
  obtain ⟨hcap, hmul⟩ := cap_mul_objSize hg hr
  rw [total, slots, hmul, hcap]
  rfl

theorem total_lt : total g r < 2 ^ 64 := total_eq hg hr ▸ Geometry.total_lt hg

variable (d : Data) (prot fd : CInt)

/-- The constants of the header after `get_buf`. -/
theorem formatted : Formatted g r
    (storeData d (ringStores g.info g.objNum (slotFlag g.kind) prot fd)) := by
  obtain ⟨hnum, hmask, hsize⟩ := objNum_of_getBufRing hr
  obtain ⟨-, hmul⟩ := cap_mul_objSize hg hr
  obtain ⟨hloadNum, hloadSize⟩ := load_ringStores hg d prot fd
  have hpos : 0 < g.objNum.toNat := by
    have := r.two_le_cap
    rw [(cap_mul_objSize hg hr).1] at this
    omega
  have hinfo : g.info.alignedObjSize = getAlignedOffset g.objSize cacheLineSize ∧
      g.info.bufOffS = sizeofRingBuf := by
    simp only [Geometry.info, getTotalSize]
    split_ifs <;> exact ⟨rfl, rfl⟩
  refine ⟨?_, hloadNum.trans hnum.symm, ?_, ?_, ?_⟩
  · rw [hloadSize, hinfo.1, hsize]
  · rw [hmask]
    exact load_header hg ((headerStores g.info g.objNum prot fd).take 4) rfl
      (by simp [Store.area, Field.offset, bufferOffsetAt]) (by decide)
  · have hload := load_header (d := d) hg ((headerStores g.info g.objNum prot fd).take 8) rfl
      (by simp) (by decide)
    rw [hload, hinfo.2]
    rfl
  · intro hs
    have hslot := Geometry.toNat_slot hg hs hpos
    rw [load_slotOffset hg hs, slots, hmul]
    simpa using hslot

variable {Tid : Type} (localHead localTail : Tid → SizeT)

omit hg hr in
/-- The ring that the bytes of a mapping hold. -/
def mem (r : Ring SizeT) (s : Image Tid) : Mem SizeT Tid where
  head := s.word Field.head.offset
  tail := s.word Field.tail.offset
  slot i := s.word (slots r + 64 * i)
  buffer a := s.data (192 + a)
  localHead := s.localHead
  localTail := s.localTail

omit hg hr in
theorem holds_mem (g : Geometry) (r : Ring SizeT) (s : Image Tid) :
    Holds g r s.data s (s.mem r) where
  kept _ _ := rfl
  head := rfl
  tail := rfl
  slot _ _ _ := rfl
  buffer _ _ := rfl
  localHead := rfl
  localTail := rfl

/-- A mapping with a new ring. -/
def created (g : Geometry) : Image Tid :=
  ⟨storeData d (ringStores g.info g.objNum (slotFlag g.kind) prot fd), localHead, localTail⟩

omit hr in
theorem head_created : ((created d prot fd localHead localTail g).mem r).head = 0 :=
  load_header hg [] rfl (by simp [Store.area, Field.offset, bufferOffsetAt]) (by decide)

omit hr in
theorem tail_created : ((created d prot fd localHead localTail g).mem r).tail = 0 :=
  load_header hg ((headerStores g.info g.objNum prot fd).take 1) rfl
    (by simp [Store.area, Field.offset, bufferOffsetAt]) (by decide)

theorem slot_created (hs : hasSlots g.kind = true) {i : Nat} (hi : i < r.cap) :
    ((created d prot fd localHead localTail g).mem r).slot i = slotValue g.kind (.ofNat 64 i) := by
  obtain ⟨hcap, hmul⟩ := cap_mul_objSize hg hr
  show load 8 _ (slots r + 64 * i) = _
  rw [slots, hmul, Nat.mul_comm 64]
  exact load_slot hg hs (hcap ▸ hi)

end Image

end Ring

end RingBuf
