import Mathlib.Data.BitVec
import RingBuf.Bytes
import RingBuf.Memory

/-!
# The layout of a new ring

`get_buf` and `get_block_buf` compute where the objects and the slot words of a new ring lie, and
how many bytes to obtain, with `size_t` arithmetic on the caller's numbers. The layout is safe
(`Layout.Safe`) exactly as long as this arithmetic does not wrap around (`layout_safe_iff`).

The slot kind `useSlot` is an `int` that the code tests bit by bit.
-/

namespace RingBuf

open Conc Word LawfulWord Bytes

/-- `int` -/
abbrev CInt := BitVec 32

namespace Setup

def cacheLineSize : SizeT := 64

/-- `sizeof(RingBuf_t)` -/
def sizeofRingBuf : SizeT := 192

/-- `sizeof(BRingBuf_t)` -/
def sizeofBRingBuf : SizeT := 384

/-- `sizeof(Slot_t)` -/
def sizeofSlot : SizeT := 64

/-! ## The sizes -/

/-- `enum RingBufSlot` -/
def noSlot : CInt := 1 <<< 0
def mpscSlot : CInt := 1 <<< 1
def mpmcSlot : CInt := 1 <<< 2

/-- `flags & bits` as a condition. -/
def has (flags bits : CInt) : Bool := flags &&& bits != 0

theorem has_or (flags a b : CInt) : has flags (a ||| b) = (has flags a || has flags b) := by
  unfold has
  rw [BitVec.and_or_distrib_left]
  by_cases ha : flags &&& a = 0
  · rw [ha]
    simp
  · have hab : flags &&& a ||| flags &&& b ≠ 0 := fun h => ha (BitVec.or_eq_zero_iff.1 h).1
    rw [bne_iff_ne.2 ha, bne_iff_ne.2 hab]
    rfl

/-- `SizeInfo_t` -/
structure SizeInfo where
  bufOffS : SizeT
  bufOffE : SizeT
  slotOffS : SizeT
  slotOffE : SizeT
  totalSize : SizeT
  alignedObjSize : SizeT

/-- `get_total_size` -/
def getTotalSize (objNum objSize : SizeT) (useSlot : CInt) : SizeInfo :=
  let alignedObjSize := getAlignedOffset objSize cacheLineSize
  let bufOffS := getAlignedOffset sizeofRingBuf cacheLineSize
  let bufOffE := getAlignedOffset (bufOffS + alignedObjSize * objNum) cacheLineSize
  if has useSlot (mpmcSlot ||| mpscSlot) then
    let slotOffS := getAlignedOffset bufOffE cacheLineSize
    let slotOffE := getAlignedOffset (slotOffS + sizeofSlot * objNum) cacheLineSize
    ⟨bufOffS, bufOffE, slotOffS, slotOffE, slotOffE, alignedObjSize⟩
  else if has useSlot noSlot then
    ⟨bufOffS, bufOffE, 0, 0, bufOffE, alignedObjSize⟩
  else ⟨bufOffS, bufOffE, 0, 0, 0, alignedObjSize⟩

/-- The test of `useSlot` in `get_buf`. -/
def useSlotNa (useSlot : CInt) : Bool := !has useSlot (mpscSlot ||| mpmcSlot ||| noSlot)

/-- The total size that `get_block_buf` computes. -/
def blockTotalSize (objNum objSize : SizeT) : SizeT :=
  sizeofBRingBuf + getAlignedOffset objSize cacheLineSize * objNum

/-! ## The areas -/

/-- The numbers that the code addresses a ring's memory with. -/
structure Layout where
  header : SizeT
  bufferOffset : SizeT
  objSize : SizeT
  objNum : SizeT
  /-- `none` for a ring without slots. -/
  slotOffset : Option SizeT
  totalSize : SizeT

/-- A part of a ring. -/
inductive Part
  | header
  | obj (i : SizeT)
  | slot (i : SizeT)

namespace Layout

/-- The parts that a ring has. -/
def Has (l : Layout) : Part → Prop
  | .header => True
  | .obj i => i < l.objNum
  | .slot i => i < l.objNum ∧ l.slotOffset.isSome

/-- Where a part starts. -/
def start (l : Layout) : Part → SizeT
  | .header => 0
  | .obj i => l.bufferOffset + i * l.objSize
  | .slot i => l.slotOffset.getD 0 + sizeofSlot * i

/-- How many bytes a part takes. -/
def size (l : Layout) : Part → SizeT
  | .header => l.header
  | .obj _ => l.objSize
  | .slot _ => sizeofSlot

/-- The bytes of a part. -/
def area (l : Layout) (p : Part) : Set Nat :=
  Set.Ico (l.start p).toNat ((l.start p).toNat + (l.size p).toNat)

/-- A layout for objects of `objSize` bytes is safe. -/
structure Safe (l : Layout) (objSize : SizeT) : Prop where
  holds : objSize ≤ l.objSize
  aligned : ∀ p, l.Has p → 64 ∣ (l.start p).toNat
  disjoint : ∀ p q, l.Has p → l.Has q → p ≠ q → Disjoint (l.area p) (l.area q)
  inside : ∀ p, l.Has p → l.area p ⊆ Set.Ico 0 l.totalSize.toNat

end Layout

/-- The layout of a ring created by `get_buf`. -/
def ringLayout (objNum objSize : SizeT) (useSlot : CInt) : Layout :=
  let info := getTotalSize objNum objSize useSlot
  { header := sizeofRingBuf
    bufferOffset := info.bufOffS
    objSize := info.alignedObjSize
    objNum := objNum
    slotOffset := if has useSlot (mpmcSlot ||| mpscSlot) then some info.slotOffS else none
    totalSize := info.totalSize }

/-- The layout of a ring created by `get_block_buf`. -/
def blockLayout (objNum objSize : SizeT) : Layout where
  header := sizeofBRingBuf
  bufferOffset := sizeofBRingBuf
  objSize := getAlignedOffset objSize cacheLineSize
  objNum := objNum
  slotOffset := none
  totalSize := blockTotalSize objNum objSize

/-! ## Rounding up to cache lines -/

/-- A size rounded up to whole cache lines, as an unbounded number. -/
def lines (n : Nat) : Nat := (n + 63) / 64 * 64

theorem lines_of_dvd {n : Nat} (h : 64 ∣ n) : lines n = n := by
  unfold lines
  omega

theorem toNat_getAlignedOffset (x : SizeT) :
    (getAlignedOffset x cacheLineSize).toNat = (x.toNat + 63) % 2 ^ 64 / 64 * 64 := by
  have hm : (cacheLineSize - 1).toNat + 1 = 2 ^ 6 := rfl
  have hadd : (x + cacheLineSize - 1).toNat = (x.toNat + 63) % 2 ^ 64 := by
    show (x + 64#64 - 1#64).toNat = _
    bv_omega
  rw [getAlignedOffset, toNat_and_not _ _ hm, hadd]
  rfl

/-- Rounding up is exact as long as it does not wrap around. -/
theorem toNat_getAlignedOffset_of_le {x : SizeT} (h : x.toNat ≤ 2 ^ 64 - 64) :
    (getAlignedOffset x cacheLineSize).toNat = lines x.toNat := by
  rw [toNat_getAlignedOffset, Nat.mod_eq_of_lt (by omega), lines]

/-- An object size in the last cache line before `2 ^ 64` is rounded to nothing. -/
theorem toNat_getAlignedOffset_of_gt {x : SizeT} (h : 2 ^ 64 - 64 < x.toNat) :
    (getAlignedOffset x cacheLineSize).toNat = 0 := by
  have := x.isLt
  rw [toNat_getAlignedOffset]
  omega

theorem getAlignedOffset_of_dvd {x : SizeT} (h : 64 ∣ x.toNat) :
    getAlignedOffset x cacheLineSize = x := by
  apply BitVec.eq_of_toNat_eq
  have := x.isLt
  rw [toNat_getAlignedOffset_of_le (by omega), lines_of_dvd h]

theorem dvd_getAlignedOffset (x : SizeT) : 64 ∣ (getAlignedOffset x cacheLineSize).toNat := by
  rw [toNat_getAlignedOffset]
  exact Dvd.intro_left _ rfl

/-! ## Layouts whose parts follow each other -/

namespace Layout

variable {l : Layout} {objSize : SizeT}

/-- Objects follow the header and slots follow the objects, as far as `size_t` tells. -/
structure Packed (l : Layout) : Prop where
  dvd_header : 64 ∣ l.header.toNat
  dvd_objSize : 64 ∣ l.objSize.toNat
  bufferOffset : l.bufferOffset = l.header
  slotOffset : ∀ s ∈ l.slotOffset, s = l.header + l.objSize * l.objNum
  totalSize : l.totalSize = l.header + l.objSize * l.objNum +
    if l.slotOffset.isSome then sizeofSlot * l.objNum else 0

/-- Where the objects really end. -/
def bufferEnd (l : Layout) : Nat := l.header.toNat + l.objNum.toNat * l.objSize.toNat

/-- The bytes that the parts really take. -/
def extent (l : Layout) : Nat :=
  l.bufferEnd + if l.slotOffset.isSome then l.objNum.toNat * 64 else 0

theorem bufferEnd_le (l : Layout) : l.bufferEnd ≤ l.extent := Nat.le_add_right ..

theorem Packed.toNat_start_obj (h : l.Packed) {i : SizeT}
    (hlt : l.header.toNat + i.toNat * l.objSize.toNat < 2 ^ 64) :
    (l.start (.obj i)).toNat = l.header.toNat + i.toNat * l.objSize.toNat := by
  show (l.bufferOffset + i * l.objSize).toNat = _
  rw [h.bufferOffset, BitVec.toNat_add, BitVec.toNat_mul, Nat.add_mod_mod, Nat.mod_eq_of_lt hlt]

theorem toNat_bufferEnd (hlt : l.bufferEnd < 2 ^ 64) :
    (l.header + l.objSize * l.objNum).toNat = l.bufferEnd := by
  rw [BitVec.toNat_add, BitVec.toNat_mul, Nat.add_mod_mod, Nat.mul_comm]
  exact Nat.mod_eq_of_lt hlt

theorem toNat_slot {i : SizeT} (hlt : l.bufferEnd + i.toNat * 64 < 2 ^ 64) :
    (l.header + l.objSize * l.objNum + sizeofSlot * i).toNat = l.bufferEnd + i.toNat * 64 := by
  rw [BitVec.toNat_add, toNat_bufferEnd (by omega), BitVec.toNat_mul, Nat.add_mod_mod,
    Nat.mul_comm]
  exact Nat.mod_eq_of_lt hlt

theorem Packed.toNat_start_slot (h : l.Packed) (hs : l.slotOffset.isSome) {i : SizeT}
    (hlt : l.bufferEnd + i.toNat * 64 < 2 ^ 64) :
    (l.start (.slot i)).toNat = l.bufferEnd + i.toNat * 64 := by
  obtain ⟨s, he⟩ := Option.isSome_iff_exists.1 hs
  show (l.slotOffset.getD 0 + sizeofSlot * i).toNat = _
  rw [he, Option.getD_some, h.slotOffset s he, toNat_slot hlt]

/-! ### Safe as long as nothing wraps around -/

section Exact

variable (h : l.Packed) (hlt : l.extent < 2 ^ 64)
include h hlt

theorem Packed.toNat_totalSize : l.totalSize.toNat = l.extent := by
  rw [h.totalSize]
  unfold extent at *
  by_cases hs : l.slotOffset.isSome
  · rw [if_pos hs] at hlt ⊢
    rw [if_pos hs, toNat_slot hlt]
  · rw [if_neg hs] at hlt ⊢
    rw [if_neg hs, Nat.add_zero, ← toNat_bufferEnd hlt]
    exact congrArg _ (BitVec.add_zero _)

theorem Packed.area_obj {i : SizeT} (hi : i < l.objNum) :
    l.area (.obj i) = strip l.header.toNat l.objSize.toNat i.toNat := by
  have hend := strip_end_le l.header.toNat l.objSize.toNat
    (show i.toNat < l.objNum.toNat from hi)
  have hle := l.bufferEnd_le
  unfold bufferEnd at hle
  rw [area, h.toNat_start_obj (by omega)]
  rfl

theorem Packed.area_slot {i : SizeT} (hi : i < l.objNum) (hs : l.slotOffset.isSome) :
    l.area (.slot i) = strip l.bufferEnd 64 i.toNat := by
  have hend := strip_end_le l.bufferEnd 64
    (show i.toNat < l.objNum.toNat from hi)
  unfold extent at hlt
  rw [if_pos hs] at hlt
  rw [area, h.toNat_start_slot hs (by omega)]
  rfl

end Exact

/-- Without a wrap-around the parts lie one after the other. -/
theorem Packed.safe (h : l.Packed) (hlt : l.extent < 2 ^ 64) (hs : objSize ≤ l.objSize) :
    l.Safe objSize := by
  have hheader : l.area .header = Set.Ico 0 l.header.toNat := by
    rw [area, show l.start .header = 0 from rfl, show l.size .header = l.header from rfl]
    simp
  have hobj : ∀ i, i < l.objNum → l.area (.obj i) ⊆ Set.Ico l.header.toNat l.bufferEnd := by
    intro i hi
    rw [h.area_obj hlt hi]
    exact strip_subset hi
  have hslot : ∀ i, i < l.objNum → l.slotOffset.isSome →
      l.area (.slot i) ⊆ Set.Ico l.bufferEnd l.extent := by
    intro i hi hsome
    rw [h.area_slot hlt hi hsome, extent, if_pos hsome]
    exact strip_subset hi
  have hle : l.header.toNat ≤ l.bufferEnd := Nat.le_add_right ..
  have hbuf : Set.Ico 0 l.header.toNat ⊆ Set.Ico 0 l.bufferEnd :=
    Set.Ico_subset_Ico_right hle
  have hbuf' : Set.Ico l.header.toNat l.bufferEnd ⊆ Set.Ico 0 l.bufferEnd :=
    Set.Ico_subset_Ico_left (Nat.zero_le _)
  have hd : Disjoint (Set.Ico 0 l.header.toNat) (Set.Ico l.header.toNat l.bufferEnd) :=
    Set.Ico_disjoint_Ico_same
  have hd' : Disjoint (Set.Ico 0 l.bufferEnd) (Set.Ico l.bufferEnd l.extent) :=
    Set.Ico_disjoint_Ico_same
  refine ⟨hs, ?_, ?_, ?_⟩
  · intro p hp
    cases p with
    | header => exact Dvd.intro 0 rfl
    | obj i =>
      have hend := strip_end_le l.header.toNat l.objSize.toNat
        (show i.toNat < l.objNum.toNat from hp)
      have hbe := l.bufferEnd_le
      unfold bufferEnd at hbe
      rw [h.toNat_start_obj (by omega)]
      exact Nat.dvd_add h.dvd_header (h.dvd_objSize.mul_left _)
    | slot i =>
      have hend := strip_end_le l.bufferEnd 64
        (show i.toNat < l.objNum.toNat from hp.1)
      have hext : l.bufferEnd + l.objNum.toNat * 64 < 2 ^ 64 := by
        rwa [extent, if_pos hp.2] at hlt
      rw [h.toNat_start_slot hp.2 (by omega)]
      exact Nat.dvd_add (Nat.dvd_add h.dvd_header (h.dvd_objSize.mul_left _))
        (Nat.dvd_mul_left ..)
  · -- The parts of different sorts lie in different sections, those of one sort are strips.
    intro p q hp hq hne
    cases p with
    | header =>
      rw [hheader]
      cases q with
      | header => exact absurd rfl hne
      | obj j => exact hd.mono_right (hobj j hq)
      | slot j => exact hd'.mono hbuf (hslot j hq.1 hq.2)
    | obj i =>
      cases q with
      | header =>
        rw [hheader]
        exact hd.symm.mono_left (hobj i hp)
      | obj j =>
        rw [h.area_obj hlt hp, h.area_obj hlt hq]
        exact strip_disjoint fun e => hne (congrArg Part.obj (BitVec.eq_of_toNat_eq e))
      | slot j => exact hd'.mono ((hobj i hp).trans hbuf') (hslot j hq.1 hq.2)
    | slot i =>
      cases q with
      | header =>
        rw [hheader]
        exact hd'.symm.mono (hslot i hp.1 hp.2) hbuf
      | obj j => exact hd'.symm.mono (hslot i hp.1 hp.2) ((hobj j hq).trans hbuf')
      | slot j =>
        rw [h.area_slot hlt hp.1 hp.2, h.area_slot hlt hq.1 hq.2]
        exact strip_disjoint fun e => hne (congrArg Part.slot (BitVec.eq_of_toNat_eq e))
  · intro p hp
    rw [h.toNat_totalSize hlt]
    have hext : Set.Ico 0 l.bufferEnd ⊆ Set.Ico 0 l.extent :=
      Set.Ico_subset_Ico_right l.bufferEnd_le
    cases p with
    | header =>
      rw [hheader]
      exact hbuf.trans hext
    | obj i => exact ((hobj i hp).trans hbuf').trans hext
    | slot i => exact (hslot i hp.1 hp.2).trans (Set.Ico_subset_Ico_left (Nat.zero_le _))

/-! ### Unsafe otherwise -/

theorem not_inside {p : Part} (h : 2 ^ 64 ≤ (l.start p).toNat + (l.size p).toNat) :
    ¬l.area p ⊆ Set.Ico 0 l.totalSize.toNat := by
  intro hsub
  have hstart := (l.start p).isLt
  have hmem : 2 ^ 64 - 1 ∈ l.area p := ⟨by omega, by omega⟩
  have htop := (hsub hmem).2
  have htotal := l.totalSize.isLt
  omega

/-- If the sizes wrap around, an object or a slot word is not inside the ring. -/
theorem Packed.extent_lt (h : l.Packed) (hs : l.Safe objSize) : l.extent < 2 ^ 64 := by
  by_contra hge
  rw [Nat.not_lt] at hge
  have index : ∀ {i : Nat}, i < l.objNum.toNat → (BitVec.ofNat 64 i).toNat = i := by
    intro i hi
    have := l.objNum.isLt
    exact BitVec.toNat_ofNat i 64 ▸ Nat.mod_eq_of_lt (by omega)
  by_cases hbuf : l.bufferEnd < 2 ^ 64
  · have hsome : l.slotOffset.isSome := by
      by_contra hn
      rw [extent, if_neg hn] at hge
      omega
    rw [extent, if_pos hsome] at hge
    obtain ⟨i, hi, hstart, hpast⟩ := exists_strip_past hbuf hge
    have hi' := index hi
    refine not_inside (p := .slot (BitVec.ofNat 64 i)) ?_ (hs.inside _ ⟨?_, hsome⟩)
    · rw [h.toNat_start_slot hsome (by rw [hi']; exact hstart), hi']
      exact hpast
    · rw [BitVec.lt_def, hi']
      exact hi
  · obtain ⟨i, hi, hstart, hpast⟩ := exists_strip_past l.header.isLt (Nat.le_of_not_lt hbuf)
    have hi' := index hi
    refine not_inside (p := .obj (BitVec.ofNat 64 i)) ?_ (hs.inside _ ?_)
    · rw [h.toNat_start_obj (by rw [hi']; exact hstart), hi']
      exact hpast
    · show BitVec.ofNat 64 i < l.objNum
      rw [BitVec.lt_def, hi']
      exact hi

theorem Packed.safe_iff (h : l.Packed) :
    l.Safe objSize ↔ objSize ≤ l.objSize ∧ l.extent < 2 ^ 64 :=
  ⟨fun hs => ⟨hs.holds, h.extent_lt hs⟩, fun ⟨hs, hlt⟩ => h.safe hlt hs⟩

end Layout

/-! ## The layouts of the two constructors -/

theorem dvd_sizeofRingBuf : 64 ∣ sizeofRingBuf.toNat := ⟨3, rfl⟩

/-- Where the objects end. -/
def objsEnd (header objNum objSize : SizeT) : SizeT :=
  header + getAlignedOffset objSize cacheLineSize * objNum

theorem dvd_objsEnd {header : SizeT} (h : 64 ∣ header.toNat) (objNum objSize : SizeT) :
    64 ∣ (objsEnd header objNum objSize).toNat := by
  rw [objsEnd, BitVec.toNat_add, BitVec.toNat_mul, Nat.add_mod_mod]
  exact (Nat.dvd_mod_iff ⟨2 ^ 58, rfl⟩).2
    (Nat.dvd_add h ((dvd_getAlignedOffset objSize).mul_right _))

theorem dvd_slotsEnd (objNum objSize : SizeT) :
    64 ∣ (objsEnd sizeofRingBuf objNum objSize + sizeofSlot * objNum).toNat := by
  rw [BitVec.toNat_add, BitVec.toNat_mul, Nat.add_mod_mod]
  exact (Nat.dvd_mod_iff ⟨2 ^ 58, rfl⟩).2
    (Nat.dvd_add (dvd_objsEnd dvd_sizeofRingBuf objNum objSize) (Nat.dvd_mul_right ..))

theorem getTotalSize_slots (objNum objSize : SizeT) {useSlot : CInt}
    (h : has useSlot (mpmcSlot ||| mpscSlot) = true) :
    getTotalSize objNum objSize useSlot =
      { bufOffS := sizeofRingBuf
        bufOffE := objsEnd sizeofRingBuf objNum objSize
        slotOffS := objsEnd sizeofRingBuf objNum objSize
        slotOffE := objsEnd sizeofRingBuf objNum objSize + sizeofSlot * objNum
        totalSize := objsEnd sizeofRingBuf objNum objSize + sizeofSlot * objNum
        alignedObjSize := getAlignedOffset objSize cacheLineSize } := by
  have hbuf : getAlignedOffset sizeofRingBuf cacheLineSize = sizeofRingBuf := rfl
  have hend := getAlignedOffset_of_dvd (dvd_objsEnd dvd_sizeofRingBuf objNum objSize)
  have hslots := getAlignedOffset_of_dvd (dvd_slotsEnd objNum objSize)
  simp only [objsEnd] at hend hslots ⊢
  simp only [getTotalSize, h, if_true, hbuf, hend, hslots]

theorem getTotalSize_noSlots (objNum objSize : SizeT) {useSlot : CInt}
    (h : has useSlot (mpmcSlot ||| mpscSlot) = false) (hna : useSlotNa useSlot = false) :
    getTotalSize objNum objSize useSlot =
      { bufOffS := sizeofRingBuf
        bufOffE := objsEnd sizeofRingBuf objNum objSize
        slotOffS := 0
        slotOffE := 0
        totalSize := objsEnd sizeofRingBuf objNum objSize
        alignedObjSize := getAlignedOffset objSize cacheLineSize } := by
  have hbuf : getAlignedOffset sizeofRingBuf cacheLineSize = sizeofRingBuf := rfl
  have hend := getAlignedOffset_of_dvd (dvd_objsEnd dvd_sizeofRingBuf objNum objSize)
  have hno : has useSlot noSlot = true := by
    -- One of the three bits is set, and it is not one of the other two.
    by_contra hn
    simp only [useSlotNa, has, Bool.not_eq_false', bne_iff_ne, bne_eq_false_iff_eq, ne_eq,
      Classical.not_not] at h hna hn
    rw [BitVec.and_or_distrib_left, hn, BitVec.or_comm mpscSlot, h] at hna
    exact hna rfl
  simp only [objsEnd] at hend ⊢
  simp only [getTotalSize, h, hno, Bool.false_eq_true, if_true, if_false, hbuf, hend]

theorem ringLayout_packed (objNum objSize : SizeT) {useSlot : CInt}
    (hna : useSlotNa useSlot = false) : (ringLayout objNum objSize useSlot).Packed := by
  have hobj := dvd_getAlignedOffset objSize
  cases h : has useSlot (mpmcSlot ||| mpscSlot) with
  | true =>
    simp only [ringLayout, getTotalSize_slots objNum objSize h, h]
    exact ⟨dvd_sizeofRingBuf, hobj, rfl, fun s he => (Option.some.inj he).symm, rfl⟩
  | false =>
    simp only [ringLayout, getTotalSize_noSlots objNum objSize h hna, h]
    exact ⟨dvd_sizeofRingBuf, hobj, rfl, (fun _ he => nomatch he), (BitVec.add_zero _).symm⟩

theorem blockLayout_packed (objNum objSize : SizeT) : (blockLayout objNum objSize).Packed where
  dvd_header := ⟨6, rfl⟩
  dvd_objSize := dvd_getAlignedOffset objSize
  bufferOffset := rfl
  slotOffset _ he := nomatch he
  totalSize := (BitVec.add_zero _).symm

/-- The sizes of a ring with a header of `header` bytes do not wrap around. -/
def SizesFit (header objNum objSize : SizeT) (slots : Bool) : Prop :=
  objSize.toNat ≤ 2 ^ 64 - 64 ∧ header.toNat + objNum.toNat * lines objSize.toNat +
    (if slots then objNum.toNat * 64 else 0) < 2 ^ 64

/-- The rounded object size is too small when rounding wraps around, and only then. -/
theorem le_getAlignedOffset_iff {objSize : SizeT} :
    objSize ≤ getAlignedOffset objSize cacheLineSize ↔ objSize.toNat ≤ 2 ^ 64 - 64 := by
  rw [BitVec.le_def]
  rcases Nat.lt_or_ge (2 ^ 64 - 64) objSize.toNat with hlt | hge
  · rw [toNat_getAlignedOffset_of_gt hlt]
    omega
  · rw [toNat_getAlignedOffset_of_le hge, lines]
    omega

theorem Layout.Packed.safe_iff_sizesFit {l : Layout} (h : l.Packed) {objSize : SizeT}
    (hobj : l.objSize = getAlignedOffset objSize cacheLineSize) :
    l.Safe objSize ↔ SizesFit l.header l.objNum objSize l.slotOffset.isSome := by
  rw [h.safe_iff, hobj, le_getAlignedOffset_iff, SizesFit, Layout.extent, Layout.bufferEnd, hobj]
  refine and_congr_right fun hle => ?_
  rw [toNat_getAlignedOffset_of_le hle]

/-- The layouts that `get_buf` and `get_block_buf` compute are safe as long as the sizes do not
wrap around, and no longer. -/
theorem layout_safe_iff (objNum objSize : SizeT) (useSlot : CInt)
    (h : useSlotNa useSlot = false) :
    ((ringLayout objNum objSize useSlot).Safe objSize ↔
      SizesFit sizeofRingBuf objNum objSize (has useSlot (mpmcSlot ||| mpscSlot))) ∧
    ((blockLayout objNum objSize).Safe objSize ↔
      SizesFit sizeofBRingBuf objNum objSize false) := by
  have hobj : (ringLayout objNum objSize useSlot).objSize =
      getAlignedOffset objSize cacheLineSize := by
    simp only [ringLayout, getTotalSize]
    split_ifs <;> rfl
  have hslots : (ringLayout objNum objSize useSlot).slotOffset.isSome =
      has useSlot (mpmcSlot ||| mpscSlot) := by
    simp only [ringLayout]
    split_ifs with hs
    · exact hs.symm
    · exact (Bool.eq_false_iff.2 hs).symm
  refine ⟨?_, (blockLayout_packed objNum objSize).safe_iff_sizesFit rfl⟩
  rw [(ringLayout_packed objNum objSize h).safe_iff_sizesFit hobj, hslots]
  rfl

/-- Two objects of a cache line, with slots. -/
theorem layout_safe_iff_two :
    ((ringLayout 2 64 mpmcSlot).Safe 64 ↔ SizesFit sizeofRingBuf 2 64 true) ∧
    ((blockLayout 2 64).Safe 64 ↔ SizesFit sizeofBRingBuf 2 64 false) :=
  layout_safe_iff 2 64 mpmcSlot rfl

/-- `2 ^ 58` objects of a cache line are accepted, in a ring of 192 bytes whose first object
starts at byte 192. -/
theorem layout_unsafe : capacityWrong (2 ^ 58) = false ∧ useSlotNa noSlot = false ∧
    (ringLayout (2 ^ 58) 64 noSlot).totalSize = 192 ∧
    ¬(ringLayout (2 ^ 58) 64 noSlot).Safe 64 := by
  refine ⟨by decide, rfl, by decide, ?_⟩
  intro hs
  have htotal : (ringLayout (2 ^ 58) 64 noSlot).totalSize = 192 := by decide
  have hstart : (ringLayout (2 ^ 58) 64 noSlot).start (.obj 0) = 192 := by decide
  have hsize : (ringLayout (2 ^ 58) 64 noSlot).size (.obj 0) = 64 := by decide
  have hin := hs.inside (.obj 0) (by show (0 : SizeT) < 2 ^ 58; decide)
  rw [Layout.area, hstart, hsize, htotal] at hin
  have hmem : 192 ∈ Set.Ico 0 (BitVec.toNat (192 : SizeT)) := hin ⟨by decide, by decide⟩
  exact absurd hmem.2 (by decide)

end Setup

end RingBuf
