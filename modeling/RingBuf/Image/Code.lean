import RingBuf.Conc.Refine
import RingBuf.Setup.Attach

/-!
# A ring as the bytes of a mapping

The ring of the queue models has a head, a tail, slots and objects of its own. In the program they
are bytes of one mapping, found through the offsets in its header (`GET_BUFFER`, `GET_SLOT`). Here
the operations act on these bytes. As long as they stay within the capacity, they do to the bytes
what they do to the ring that the bytes hold (`Holds.exec`), and touch no byte of the header's
constants and none behind the ring.
-/

namespace RingBuf

open Conc Word Bytes
open Setup (Geometry Field hasSlots bufferOffsetAt slotOffsetAt sizeofSlot lines)

/-- The bytes of a mapping that all threads share, and the caches of each thread. -/
structure Image (Tid : Type) where
  data : Data
  localHead : Tid → SizeT
  localTail : Tid → SizeT

namespace Image

variable {Tid : Type}

/-- The `size_t` at an offset. -/
def word (s : Image Tid) (a : Nat) : SizeT := load 8 s.data a

/-- A store of a `size_t`. -/
def put (s : Image Tid) (a : Nat) (v : SizeT) : Image Tid :=
  { s with data := store (n := 8) s.data a v }

/-- Where `GET_SLOT(r, i)` is. -/
def slotAt (s : Image Tid) (i : SizeT) : Nat := (s.word slotOffsetAt + sizeofSlot * i).toNat

/-- Where `GET_BUFFER(r) + a` is. -/
def byteAt (s : Image Tid) (a : Nat) : Nat := (s.word bufferOffsetAt).toNat + a

/-- The effect of an operation of thread `t` on the bytes. -/
def exec [DecidableEq Tid] (t : Tid) : (o : Op SizeT) → Image Tid → o.Res × Image Tid
  | .loadHead, s => (s.word Field.head.offset, s)
  | .loadTail, s => (s.word Field.tail.offset, s)
  | .storeHead v, s => ((), s.put Field.head.offset v)
  | .storeTail v, s => ((), s.put Field.tail.offset v)
  | .casHead e d, s =>
    if s.word Field.head.offset = e then (true, s.put Field.head.offset d) else (false, s)
  | .casTail e d, s =>
    if s.word Field.tail.offset = e then (true, s.put Field.tail.offset d) else (false, s)
  | .loadSlot i, s => (s.word (s.slotAt i), s)
  | .storeSlot i v, s => ((), s.put (s.slotAt i) v)
  | .readByte a, s => (s.data (s.byteAt a), s)
  | .writeByte a b, s => ((), { s with data := Function.update s.data (s.byteAt a) b })
  | .getLocalHead, s => (s.localHead t, s)
  | .setLocalHead v, s => ((), { s with localHead := Function.update s.localHead t v })
  | .getLocalTail, s => (s.localTail t, s)
  | .setLocalTail v, s => ((), { s with localTail := Function.update s.localTail t v })
  | .callback _, s => ((), s)

theorem word_put_self (s : Image Tid) (a : Nat) (v : SizeT) : (s.put a v).word a = v :=
  load_store_self (n := 8) v

theorem word_put {s : Image Tid} {a b : Nat} {v : SizeT} (h : b + 8 ≤ a ∨ a + 8 ≤ b) :
    (s.put a v).word b = s.word b :=
  load_store_of_disjoint (n := 8) (m := 8) h

theorem data_put {s : Image Tid} {a b : Nat} {v : SizeT} (h : b < a ∨ a + 8 ≤ b) :
    (s.put a v).data b = s.data b :=
  blit_of_not_mem (by omega)

/-! ## The ring that the bytes hold -/

/-- Where the slots of a ring are. -/
def slots (r : Ring SizeT) : Nat := 192 + r.cap * r.objSize

/-- Where a ring ends. -/
def total (g : Geometry) (r : Ring SizeT) : Nat :=
  slots r + if hasSlots g.kind then r.cap * 64 else 0

/-- The constants that `get_buf` leaves in the header. -/
structure Formatted (g : Geometry) (r : Ring SizeT) (d : Data) : Prop where
  objSize : (load 8 d Field.objSize.offset).toNat = r.objSize
  objNum : load 8 d Field.objNum.offset = r.objNum
  mask : load 8 d Field.mask.offset = r.mask
  bufferOffset : (load 8 d bufferOffsetAt).toNat = 192
  slotOffset : hasSlots g.kind = true → (load 8 d slotOffsetAt).toNat = slots r

/-- The bytes that no operation touches: the constants, and what lies behind the ring. -/
def Kept (g : Geometry) (r : Ring SizeT) (d d' : Data) : Prop :=
  ∀ b, (128 ≤ b ∧ b < 192) ∨ total g r ≤ b → d' b = d b

/-- The bytes `s`, with the constants of `d`, hold the ring `m`. -/
structure Holds (g : Geometry) (r : Ring SizeT) (d : Data) (s : Image Tid) (m : Mem SizeT Tid) :
    Prop where
  kept : Kept g r d s.data
  head : s.word Field.head.offset = m.head
  tail : s.word Field.tail.offset = m.tail
  slot : hasSlots g.kind = true → ∀ i < r.cap, s.word (slots r + 64 * i) = m.slot i
  buffer : ∀ a < r.cap * r.objSize, s.data (192 + a) = m.buffer a
  localHead : s.localHead = m.localHead
  localTail : s.localTail = m.localTail

/-- The operations that stay within the capacity. -/
def Within (g : Geometry) (r : Ring SizeT) : Op SizeT → Prop
  | .loadSlot i | .storeSlot i _ => hasSlots g.kind = true ∧ i.toNat < r.cap
  | .readByte a | .writeByte a _ => a < r.cap * r.objSize
  | _ => True

variable {g : Geometry} {r : Ring SizeT} {d : Data} {s : Image Tid} {m : Mem SizeT Tid}

theorem slots_le_total (g : Geometry) (r : Ring SizeT) : slots r ≤ total g r := Nat.le_add_right ..

/-- A constant of the header is what it was. -/
theorem Holds.constant (h : Holds g r d s m) {a : Nat} (h₁ : 128 ≤ a) (h₂ : a + 8 ≤ 192) :
    s.word a = load 8 d a :=
  load_congr fun b hb₁ hb₂ => h.kept b (.inl ⟨by omega, by omega⟩)

/-- So the header says at every moment what the ring model takes for constants. -/
theorem Holds.formatted (h : Holds g r d s m) (hf : Formatted g r d) : Formatted g r s.data where
  objSize := (congrArg BitVec.toNat (h.constant (by decide) (by decide))).trans hf.objSize
  objNum := (h.constant (by decide) (by decide)).trans hf.objNum
  mask := (h.constant (by decide) (by decide)).trans hf.mask
  bufferOffset := (congrArg BitVec.toNat (h.constant (by decide) (by decide))).trans hf.bufferOffset
  slotOffset hs :=
    (congrArg BitVec.toNat (h.constant (by decide) (by decide))).trans (hf.slotOffset hs)

theorem Holds.byteAt (h : Holds g r d s m) (hf : Formatted g r d) (a : Nat) :
    s.byteAt a = 192 + a := by
  unfold Image.byteAt
  rw [h.constant (by decide) (by decide), hf.bufferOffset]

theorem Holds.slotAt (h : Holds g r d s m) (hf : Formatted g r d) (hlt : total g r < 2 ^ 64)
    (hs : hasSlots g.kind = true) {i : SizeT} (hi : i.toNat < r.cap) :
    s.slotAt i = slots r + 64 * i.toNat := by
  have htotal : total g r = slots r + r.cap * 64 := by rw [total, if_pos hs]
  have hsize : sizeofSlot.toNat = 64 := rfl
  unfold Image.slotAt
  rw [h.constant (by decide) (by decide), BitVec.toNat_add, BitVec.toNat_mul, hf.slotOffset hs,
    Nat.add_mod_mod, hsize]
  exact Nat.mod_eq_of_lt (by omega)

/-! ## One operation -/

/-- A store into the header's counters leaves the rest alone. -/
theorem Kept.put (h : Kept g r d s.data) {a : Nat} {v : SizeT}
    (ha : a + 8 ≤ 128 ∨ 192 ≤ a ∧ a + 8 ≤ total g r) : Kept g r d (s.put a v).data := by
  intro b hb
  have hle := slots_le_total g r
  unfold slots at hle
  rw [data_put (by omega)]
  exact h b hb

theorem Holds.putHead (h : Holds g r d s m) (v : SizeT) :
    Holds g r d (s.put Field.head.offset v) { m with head := v } where
  kept := h.kept.put (.inl (by decide))
  head := word_put_self ..
  tail := (word_put (.inr (by decide))).trans h.tail
  slot hs i hi :=
    (word_put (.inr (by simp only [slots, Field.offset]; omega))).trans (h.slot hs i hi)
  buffer a ha := (data_put (.inr (by simp only [Field.offset]; omega))).trans (h.buffer a ha)
  localHead := h.localHead
  localTail := h.localTail

theorem Holds.putTail (h : Holds g r d s m) (v : SizeT) :
    Holds g r d (s.put Field.tail.offset v) { m with tail := v } where
  kept := h.kept.put (.inl (by decide))
  head := (word_put (.inl (by decide))).trans h.head
  tail := word_put_self ..
  slot hs i hi :=
    (word_put (.inr (by simp only [slots, Field.offset]; omega))).trans (h.slot hs i hi)
  buffer a ha := (data_put (.inr (by simp only [Field.offset]; omega))).trans (h.buffer a ha)
  localHead := h.localHead
  localTail := h.localTail

theorem Holds.putSlot (h : Holds g r d s m) (hs : hasSlots g.kind = true) {i : Nat}
    (hi : i < r.cap) (v : SizeT) :
    Holds g r d (s.put (slots r + 64 * i) v) { m with slot := Function.update m.slot i v } where
  kept := by
    have htotal : total g r = slots r + r.cap * 64 := by rw [total, if_pos hs]
    refine h.kept.put (.inr ⟨?_, by omega⟩)
    unfold slots
    omega
  head := (word_put (.inl (by simp only [slots, Field.offset]; omega))).trans h.head
  tail := (word_put (.inl (by simp only [slots, Field.offset]; omega))).trans h.tail
  slot _ j hj := by
    show _ = Function.update m.slot i v j
    by_cases hij : j = i
    · rw [hij, Function.update_self]
      exact word_put_self ..
    · rw [Function.update_of_ne hij, ← h.slot hs j hj]
      exact word_put (by omega)
  buffer a ha := (data_put (.inl (by unfold slots; omega))).trans (h.buffer a ha)
  localHead := h.localHead
  localTail := h.localTail

theorem word_update {a b : Nat} {x : Byte} (h : a < b ∨ b + 8 ≤ a) :
    word { s with data := Function.update s.data a x } b = s.word b :=
  load_congr fun _ _ _ => Function.update_of_ne (by omega) ..

theorem Holds.writeByte (h : Holds g r d s m) {a : Nat} (ha : a < r.cap * r.objSize) (x : Byte) :
    Holds g r d { s with data := Function.update s.data (192 + a) x }
      { m with buffer := Function.update m.buffer a x } where
  kept b hb := by
    have hle := slots_le_total g r
    unfold slots at hle
    exact (Function.update_of_ne (by omega) ..).trans (h.kept b hb)
  head := (word_update (.inr (by simp only [Field.offset]; omega))).trans h.head
  tail := (word_update (.inr (by simp only [Field.offset]; omega))).trans h.tail
  slot hs i hi := (word_update (.inl (by unfold slots; omega))).trans (h.slot hs i hi)
  buffer b hb := by
    show Function.update s.data (192 + a) x (192 + b) = Function.update m.buffer a x b
    by_cases hab : b = a
    · rw [hab, Function.update_self, Function.update_self]
    · rw [Function.update_of_ne (by omega), Function.update_of_ne hab]
      exact h.buffer b hb
  localHead := h.localHead
  localTail := h.localTail

variable [DecidableEq Tid]

/-- An operation does to the bytes what it does to the ring. -/
theorem Holds.exec (hf : Formatted g r d) (hlt : total g r < 2 ^ 64) {t : Tid} {o : Op SizeT}
    (ho : Within g r o) (h : Holds g r d s m) :
    (exec t o s).1 = (RingBuf.exec t o m).1 ∧
      Holds g r d (Image.exec t o s).2 (RingBuf.exec t o m).2 := by
  cases o with
  | loadHead => exact ⟨h.head, h⟩
  | loadTail => exact ⟨h.tail, h⟩
  | storeHead v => exact ⟨rfl, h.putHead v⟩
  | storeTail v => exact ⟨rfl, h.putTail v⟩
  | casHead e v =>
    simp only [Image.exec, RingBuf.exec, h.head]
    split
    case isTrue => exact ⟨rfl, h.putHead v⟩
    case isFalse => exact ⟨rfl, h⟩
  | casTail e v =>
    simp only [Image.exec, RingBuf.exec, h.tail]
    split
    case isTrue => exact ⟨rfl, h.putTail v⟩
    case isFalse => exact ⟨rfl, h⟩
  | loadSlot i =>
    simp only [Image.exec, RingBuf.exec, h.slotAt hf hlt ho.1 ho.2]
    exact ⟨h.slot ho.1 _ ho.2, h⟩
  | storeSlot i v =>
    simp only [Image.exec, RingBuf.exec, h.slotAt hf hlt ho.1 ho.2]
    exact ⟨trivial, h.putSlot ho.1 ho.2 v⟩
  | readByte a =>
    simp only [Image.exec, RingBuf.exec, h.byteAt hf]
    exact ⟨h.buffer a ho, h⟩
  | writeByte a x =>
    simp only [Image.exec, RingBuf.exec, h.byteAt hf]
    exact ⟨trivial, h.writeByte ho x⟩
  | getLocalHead => exact ⟨congrFun h.localHead t, h⟩
  | setLocalHead v =>
    refine ⟨rfl, { h with localHead := ?_ }⟩
    show Function.update s.localHead t v = Function.update m.localHead t v
    rw [h.localHead]
  | getLocalTail => exact ⟨congrFun h.localTail t, h⟩
  | setLocalTail v =>
    refine ⟨rfl, { h with localTail := ?_ }⟩
    show Function.update s.localTail t v = Function.update m.localTail t v
    rw [h.localTail]
  | callback p => exact ⟨rfl, h⟩

end Image

end RingBuf
