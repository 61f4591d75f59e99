import RingBuf.Image.Rings
import RingBuf.Mpmc.Exclusion

/-!
# Bounded FIFOs on the file of a new ring

A run on the bytes of a file that `get_buf` has created is one on the ring that they hold, whose
counters and slot words can be read off the bytes (`mem`). So the queues are bounded FIFOs there
too (`mpmc_fifo_bytes`, `mpsc_fifo_bytes`, `spsc_fifo_bytes`), and the slots of an Mpmc ring are
accessed under mutual exclusion (`mpmc_exclusion_bytes`), for all sizes whose layout does not wrap.
-/

namespace RingBuf

open Conc Word Bytes
open Setup (Geometry Creates Addr Os FileId Env)

/-! ## What a FIFO says of its last state -/

/-- It speaks of the counters only. -/
theorem Mpmc.Fifo.congr {Tid : Type} {r : Ring SizeT} {tr : List (Mpmc.Ev SizeT Tid r.objSize)}
    {m m' : Mem SizeT Tid} (h : Mpmc.Fifo r tr m) (hhead : m'.head = m.head)
    (htail : m'.tail = m.tail) : Mpmc.Fifo r tr m' where
  __ := h
  pushes := hhead ▸ h.pushes
  pops := htail ▸ h.pops
  bounds := hhead ▸ htail ▸ h.bounds

theorem Mpsc.Fifo.congr {Tid : Type} {r : Ring SizeT} {tr : List (Mpsc.Ev Tid r.objSize)}
    {m m' : Mem SizeT Tid} (h : Mpsc.Fifo r tr m) (hhead : m'.head = m.head)
    (htail : m'.tail = m.tail) : Mpsc.Fifo r tr m' where
  __ := h
  pushes := hhead ▸ h.pushes
  pops := htail ▸ h.pops
  bounds := hhead ▸ htail ▸ h.bounds

theorem Spsc.Fifo.congr {Tid : Type} {r : Ring SizeT} {p : Nat} {q₀ : List Elem}
    {tr : List (Spsc.Ev Tid r.objSize)} {m m' : Mem SizeT Tid} (h : Spsc.Fifo r p q₀ tr m)
    (hhead : m'.head = m.head) (htail : m'.tail = m.tail) : Spsc.Fifo r p q₀ tr m' where
  __ := h
  counters := ⟨hhead.trans h.counters.1, htail.trans h.counters.2⟩

namespace Image

variable {Tid : Type} [DecidableEq Tid] {g : Geometry} {r : Ring SizeT} {Path : Type}
  [DecidableEq Path] {hugeSize : SizeT → SizeT} {env : Env} {path : Path} {prot flag : CInt}
  {s : Os Path} {p : Addr} {f : FileId} {localHead localTail : Tid → SizeT}

/-! ## Mpmc -/

section Mpmc

variable {tr tr₁ tr₂ : List (Mpmc.Ev SizeT Tid r.objSize)}
  {cf c₁ c₂ : Config (Op SizeT) Op.Res Empty Tid (Mpmc.Call r.objSize) Ret (Image Tid)}

/-- **The Mpmc ring is a bounded FIFO on the bytes of its file.** -/
theorem mpmc_fifo_bytes (hg : g.Valid) (hr : getBufRing g.objNum g.objSize = some r)
    (hk : g.kind = .mpmcSlot) (hc : Creates hugeSize env g path prot flag s p)
    (hf : (g.after hugeSize env path prot flag s).files.named path = some f)
    (h : Run (mpmc r Tid) (.start ⟨((g.after hugeSize env path prot flag s).files.file f).data,
      localHead, localTail⟩) tr cf)
    (hlt : (Mpmc.pushClaims tr).length < 2 ^ 63) : Mpmc.Fifo r tr (cf.shared.mem r) := by
  obtain ⟨hon, hfresh⟩ := mpmc_runsOn hg hr hk hc hf h
  obtain ⟨m, hrun, hm⟩ := hon.ring
  exact (hfresh.fifo hrun hlt).congr hm.head hm.tail

/-- **Mpmc slots are accessed under mutual exclusion on the bytes of the file**, and their words
only grow. -/
theorem mpmc_exclusion_bytes (hg : g.Valid) (hr : getBufRing g.objNum g.objSize = some r)
    (hk : g.kind = .mpmcSlot) (hc : Creates hugeSize env g path prot flag s p)
    (hf : (g.after hugeSize env path prot flag s).files.named path = some f)
    (h₁ : Run (mpmc r Tid) (.start ⟨((g.after hugeSize env path prot flag s).files.file f).data,
      localHead, localTail⟩) tr₁ c₁)
    (h₂ : Run (mpmc r Tid) c₁ tr₂ c₂) (hlt : (Mpmc.pushClaims (tr₁ ++ tr₂)).length < 2 ^ 63) :
    Mpmc.Exclusive r (tr₁ ++ tr₂) ∧
      ∀ i < r.cap, (c₁.shared.word (slots r + 64 * i)).toNat ≤
        (c₂.shared.word (slots r + 64 * i)).toNat := by
  have hslots : Setup.hasSlots g.kind = true := by rw [hk]; rfl
  obtain ⟨d, fd, hs⟩ := exists_created localHead localTail hc hf
  rw [hs] at h₁
  have hrep : Represents (mpmc r Tid) (Mpmc.sys r Tid) (Within g r)
      (Holds g r (created d prot fd localHead localTail g).data) :=
    represents hg hr (all_mpmc hslots) d fd
  obtain ⟨m₁, hrun₁, hm₁, hall⟩ := hrep.steps h₁ (fun _ => trivial) (holds_mem g r _)
  obtain ⟨m₂, hrun₂, hm₂, -⟩ := hrep.steps h₂ hall hm₁
  have hfresh : Mpmc.Fresh r ((created d prot fd localHead localTail g).mem r) :=
    fresh_mpmc hg hr hk d fd
  have hb : Mpmc.NoOverflow r (tr₁ ++ tr₂) := Mpmc.noOverflow_of_lt hlt
  refine ⟨hfresh.exclusive (hrun₁.trans hrun₂) hb, fun i hi => ?_⟩
  rw [hm₁.slot hslots i hi, hm₂.slot hslots i hi]
  exact Mpmc.slot_le_of_run hfresh hrun₁ hrun₂ hb i

end Mpmc

/-! ## Mpsc and Spsc -/

/-- **The Mpsc ring is a bounded FIFO on the bytes of its file.** -/
theorem mpsc_fifo_bytes {tr : List (Mpsc.Ev Tid r.objSize)}
    {cf : Config (Op SizeT) Op.Res Empty Tid (Mpsc.Call r.objSize) Ret (Image Tid)}
    (hg : g.Valid) (hr : getBufRing g.objNum g.objSize = some r)
    (hk : g.kind = .mpscSlot) (hc : Creates hugeSize env g path prot flag s p)
    (hf : (g.after hugeSize env path prot flag s).files.named path = some f)
    (h : Run (mpsc r Tid) (.start ⟨((g.after hugeSize env path prot flag s).files.file f).data,
      localHead, localTail⟩) tr cf)
    (hlt : (Mpsc.pushClaims tr).length < 2 ^ 63) : Mpsc.Fifo r tr (cf.shared.mem r) := by
  obtain ⟨hon, hfresh⟩ := mpsc_runsOn hg hr hk hc hf h
  obtain ⟨m, hrun, hm⟩ := hon.ring
  exact (hfresh.fifo hrun hlt).congr hm.head hm.tail

/-- **The Spsc ring is a bounded FIFO on the bytes of its file**, for runs of any length. -/
theorem spsc_fifo_bytes {producer consumer : Tid} {tr : List (Spsc.Ev Tid r.objSize)}
    {cf : Config (Op SizeT) Op.Res Empty Tid (Spsc.Call r.objSize) Spsc.Out (Image Tid)}
    (hg : g.Valid) (hr : getBufRing g.objNum g.objSize = some r)
    (hc : Creates hugeSize env g path prot flag s p)
    (hf : (g.after hugeSize env path prot flag s).files.named path = some f)
    (hproducer : localTail producer = 0) (hconsumer : localHead consumer = 0)
    (h : Run (spsc r producer consumer)
      (.start ⟨((g.after hugeSize env path prot flag s).files.file f).data, localHead, localTail⟩)
      tr cf) : Spsc.Fifo r 0 [] tr (cf.shared.mem r) := by
  obtain ⟨hon, hstart⟩ := spsc_runsOn hg hr hc hf hproducer hconsumer h
  obtain ⟨m, hrun, hm⟩ := hon.ring
  exact (hstart.fifo hrun).congr hm.head hm.tail

end Image

end RingBuf
