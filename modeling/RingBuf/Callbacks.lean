import RingBuf.Contents
import RingBuf.Conc.Queue

/-!
# What a callback answers

A callback reads the object in its slot byte by byte, while other threads run. Its answer is one
that it gives on an element (`Reads`) when each byte it has read is a byte of that element, as far
as the element's bytes are known. What it has read stands in the history (`takes_readObj`).
-/

namespace RingBuf

open Conc Word

variable {W : Type} [Word W] {n : Nat} {α : Type}

/-- Code that reads the element `e` may return `v`. -/
def Reads (p : Prog (Fin n) (fun _ => Byte) Empty α) (e : Elem) (v : α) : Prop :=
  ∃ ops, p.Takes ops v ∧ ∀ x ∈ ops, ∀ y, e x.1 = some y → x.2 = y

omit [Word W] in
/-- Code that reads the object at `a` reads bytes of this object. -/
theorem takes_readObj {a : Nat} {p : Prog (Fin n) (fun _ => Byte) Empty α}
    {ops : List ((o : Op W) × o.Res)} {v : α} (h : (readObj a p : RingProg W α).Takes ops v) :
    ∃ ops', p.Takes ops' v ∧
      ∀ x ∈ ops', (⟨.readByte (a + x.1), x.2⟩ : (o : Op W) × o.Res) ∈ ops := by
  induction p generalizing ops with
  | ret w => exact ⟨[], ⟨rfl, h.2⟩, by simp⟩
  | op j k ih =>
    obtain ⟨b, ops', rfl, h⟩ := h
    obtain ⟨ops'', htakes, hmem⟩ := ih b h
    refine ⟨⟨j, b⟩ :: ops'', ⟨b, ops'', rfl, htakes⟩, fun x hx => ?_⟩
    rcases List.mem_cons.1 hx with rfl | hx
    · exact List.mem_cons_self ..
    · exact List.mem_cons_of_mem _ (hmem x hx)
  | jump l => exact l.elim

theorem takes_popEmpty {d : SizeT} {ops : List ((o : Op SizeT) × o.Res)} {empty : Bool}
    (h : (popEmpty d).Takes ops empty) : ∀ x ∈ ops, putTail x.1 x.2 = none := by
  simp only [popEmpty, Prog.op_bind, Prog.ret_bind] at h
  obtain ⟨localHead, ops, rfl, htest⟩ := h
  beta_reduce at htest
  split at htest
  case isTrue heq =>
    obtain ⟨head, -, rfl, -, -, rfl, rfl, -⟩ := htest
    simp [putTail]
  case isFalse hne =>
    obtain ⟨rfl, -⟩ := htest
    simp [putTail]

end RingBuf
