import RingBuf.Bytes
import RingBuf.Memory

/-!
# The objects of the test programs

`producer.c` numbers the objects it pushes and fills each with a text whose first character depends
on the number, between two magic words (`fillObj`); `consumer.c` works out the same text from the
number it finds in the object, and compares (`check`). An object survives the way through the ring
if it comes out with the bytes it went in with (`intact_fillObj`).
-/

namespace RingBuf

open Bytes Word

namespace Harness

/-! ## `Obj` -/

/-- `sizeof(Obj)`: 1048 packed bytes, aligned to 64. -/
def sizeofObj : Nat := 1088

/-- `sizeof(((Obj *) 0)->buf)` -/
def sizeofBuf : Nat := 1024

def magHOffset : Nat := 0
def bufOffset : Nat := 8
def magTOffset : Nat := 1032
def seqOffset : Nat := 1040

def magichead : SizeT := 0xDEADBEEF
def magictail : SizeT := 0xBEEFDEAD
def prime : SizeT := 3571

/-- `o->seq` -/
def seq (o : Data) : SizeT := load 8 o seqOffset

/-- `o->seq = pushed` -/
def setSeq (o : Data) (pushed : SizeT) : Data := store (n := 8) o seqOffset pushed

/-- The text that both programs start from. -/
def text : Data := fun i => if i = sizeofBuf - 1 then 0 else 97 + BitVec.ofNat 8 (i % 97 % 26)

/-- `(c + seq) * PRIME % 97 % 26 + 97`, as a `char`. -/
def newchar (c : Byte) (seq : SizeT) : Byte :=
  ((c.signExtend 64 + seq) * prime % 97 % 26 + 97).setWidth 8

/-- `fill_obj` -/
def fillObj (o buf : Data) (pushed : SizeT) : Data :=
  let o := store (n := 8) o magHOffset magichead
  let o := store (n := 8) o magTOffset magictail
  let o := blit o bufOffset sizeofBuf buf
  let o := Function.update o bufOffset (newchar (o bufOffset) pushed)
  setSeq o pushed

/-- `strncmp` from character `i` on, for at most `n` characters. -/
def strncmp (a b : Data) (i : Nat) : Nat → Int
  | 0 => 0
  | n + 1 =>
    if a i ≠ b i then (a i).toNat - (b i).toNat
    else if a i = 0 then 0
    else strncmp a b (i + 1) n

/-- `check`, which puts `buf[0]` back before it returns. -/
def check (o buf : Data) : Bool :=
  let buf := Function.update buf 0 (newchar (buf 0) (seq o))
  if strncmp (fun i => o (bufOffset + i)) buf 0 sizeofBuf ≠ 0 then false
  else load 8 o magHOffset == magichead && load 8 o magTOffset == magictail

/-- The bytes that a push of an `Obj` is given. -/
def toBytes (o : Data) : List Byte := (List.range sizeofObj).map o

/-- The `Obj` that a pop has written. -/
def ofBytes (bs : List Byte) : Data := fun i => bs.getD i 0

/-- The bytes are an object with number `k` that passes the check. -/
structure Intact (k : SizeT) (bs : List Byte) : Prop where
  length : bs.length = sizeofObj
  check : check (ofBytes bs) text = true
  seq : seq (ofBytes bs) = k

variable {a b o o' buf : Data} {k : SizeT} {i n : Nat}

/-! ## What the checks depend on -/

theorem strncmp_self_of_eq (h : ∀ j, i ≤ j → j < i + n → a j = b j) : strncmp a b i n = 0 := by
  induction n generalizing i with
  | zero => rfl
  | succ n ih =>
    have htail := ih (i := i + 1) fun j hi hj => h j (by omega) (by omega)
    rw [strncmp, if_neg (not_not.2 (h i (Nat.le_refl i) (by omega))), htail, ite_self]

theorem seq_congr (h : ∀ i, i < sizeofObj → o i = o' i) : seq o = seq o' := by
  refine load_congr fun i _ hi => h i ?_
  simp only [seqOffset] at hi
  simp only [sizeofObj]
  omega

theorem ofBytes_toBytes (hi : i < sizeofObj) : ofBytes (toBytes o) i = o i := by
  simp [ofBytes, toBytes, List.getD, hi]

theorem length_toBytes (o : Data) : (toBytes o).length = sizeofObj := by
  simp [toBytes]

theorem check_of_eq (hH : load 8 o magHOffset = magichead) (hT : load 8 o magTOffset = magictail)
    (hbuf : ∀ i, i < sizeofBuf →
      o (bufOffset + i) = Function.update buf 0 (newchar (buf 0) (seq o)) i) :
    check o buf = true := by
  have hcmp : strncmp (fun i => o (bufOffset + i))
      (Function.update buf 0 (newchar (buf 0) (seq o))) 0 sizeofBuf = 0 :=
    strncmp_self_of_eq fun j _ hj => hbuf j (by omega)
  rw [check, if_neg (not_not.2 hcmp), hH, hT]
  rfl

/-! ## Filling an object -/

theorem load_update {m : Nat} {x : Byte} (h : i < m ∨ m + n ≤ i) :
    load n (Function.update o i x) m = load n o m := by
  refine load_congr fun j h₁ h₂ => Function.update_of_ne ?_ ..
  omega

theorem seq_setSeq (o : Data) (k : SizeT) : seq (setSeq o k) = k := load_store_self (n := 8) k

theorem setSeq_of_lt (hi : i < seqOffset) : setSeq o k i = o i := blit_of_not_mem (by omega)

theorem setSeq_setSeq : setSeq (setSeq o k) k = setSeq o k := by
  funext i
  by_cases hi : seqOffset ≤ i ∧ i < seqOffset + 8
  · exact (blit_of_mem hi).trans (blit_of_mem hi).symm
  · exact blit_of_not_mem hi

theorem seq_fillObj : seq (fillObj o buf k) = k := seq_setSeq _ k

theorem fillObj_text (hi : i < sizeofBuf) :
    fillObj o buf k (bufOffset + i) = Function.update buf 0 (newchar (buf 0) k) i := by
  have hlt : i < 1024 := hi
  have hmem : ∀ d : Data, blit d bufOffset sizeofBuf buf (bufOffset + i) = buf i := by
    intro d
    rw [blit_of_mem ⟨by omega, by omega⟩, Nat.add_sub_cancel_left]
  have hfirst : ∀ d : Data, blit d bufOffset sizeofBuf buf bufOffset = buf 0 := by
    intro d
    exact blit_of_mem ⟨by omega, by decide⟩
  rw [fillObj, setSeq_of_lt (by simp only [bufOffset, seqOffset]; omega), hfirst]
  by_cases h0 : i = 0
  · subst h0
    rw [Nat.add_zero, Function.update_self, Function.update_self]
  · rw [Function.update_of_ne h0, Function.update_of_ne (by simp only [bufOffset]; omega)]
    exact hmem _

theorem fillObj_magH : load 8 (fillObj o buf k) magHOffset = magichead := by
  rw [fillObj, setSeq, load_store_of_disjoint (.inl (by decide)), load_update (.inr (by decide)),
    load_blit_of_disjoint (.inl (by decide)), load_store_of_disjoint (.inl (by decide))]
  exact load_store_self (n := 8) _

theorem fillObj_magT : load 8 (fillObj o buf k) magTOffset = magictail := by
  rw [fillObj, setSeq, load_store_of_disjoint (.inl (by decide)), load_update (.inl (by decide)),
    load_blit_of_disjoint (.inr (by decide))]
  exact load_store_self (n := 8) _

/-- The bytes of an object with the right number, words and text. -/
theorem intact_toBytes (hH : load 8 o magHOffset = magichead)
    (hT : load 8 o magTOffset = magictail) (hseq : seq o = k)
    (hbuf : ∀ i, i < sizeofBuf →
      o (bufOffset + i) = Function.update text 0 (newchar (text 0) k) i) :
    Intact k (toBytes o) := by
  have heq : ∀ i, i < sizeofObj → ofBytes (toBytes o) i = o i := fun i => ofBytes_toBytes
  have hseq' : seq (ofBytes (toBytes o)) = k := (seq_congr heq).trans hseq
  refine ⟨length_toBytes o, check_of_eq ?_ ?_ ?_, hseq'⟩
  · rw [← hH]
    exact load_congr fun i _ hi => heq i (Nat.lt_of_lt_of_le hi (by decide))
  · rw [← hT]
    exact load_congr fun i _ hi => heq i (Nat.lt_of_lt_of_le hi (by decide))
  · intro i hi
    have hlt : bufOffset + i < sizeofObj := by
      simp only [bufOffset, sizeofBuf, sizeofObj] at hi ⊢
      omega
    rw [heq _ hlt, hseq']
    exact hbuf i hi

/-- **An object that the producer fills passes the consumer's check**, whatever the memory held
before. -/
theorem intact_fillObj (o : Data) (k : SizeT) : Intact k (toBytes (fillObj o text k)) :=
  intact_toBytes fillObj_magH fillObj_magT seq_fillObj fun _ hi => fillObj_text hi

/-- A number has one object: two objects with the same bytes have the same number. -/
theorem Intact.inj {j : SizeT} {bs : List Byte} (h : Intact k bs) (h' : Intact j bs) : k = j :=
  h.seq.symm.trans h'.seq

end Harness

end RingBuf
