import RingBuf.Image.Programs
import RingBuf.Mpmc.Linear
import RingBuf.Mpsc.Linear
import RingBuf.Spsc.Linear

/-!
# The queues on the file of a new ring

Threads that share the mapping of a file that `get_buf` has just created run the ring's functions on
its bytes. Every history of theirs is one of the ring model from the state of a new ring (`RunsOn`),
so that the rings are linearizable as bytes too (`mpmc_bytes`, `mpsc_bytes`, `spsc_bytes`).
-/

namespace RingBuf

open Conc Word Bytes
open Setup (Geometry Creates Addr Os FileId Env)

/-- The system after a call of `get_buf`. -/
def Setup.Geometry.after {Path : Type} [DecidableEq Path] (g : Geometry) (hugeSize : SizeT → SizeT)
    (env : Env) (path : Path) (prot flag : CInt) (s : Os Path) : Os Path :=
  ((g.get hugeSize path prot flag).run (Setup.exec env) s).2

namespace Image

variable {Tid : Type} [DecidableEq Tid]

/-! ## The systems -/

def mpmc (r : Ring SizeT) (Tid : Type) [DecidableEq Tid] :
    Sys (Op SizeT) Op.Res Empty Tid (Mpmc.Call r.objSize) Ret (Image Tid) :=
  .ofFun exec (Mpmc.body r) fun _ _ _ => True

def mpsc (r : Ring SizeT) (Tid : Type) [DecidableEq Tid] :
    Sys (Op SizeT) Op.Res Empty Tid (Mpsc.Call r.objSize) Ret (Image Tid) :=
  .ofFun exec (Mpsc.body r) fun cur _ c => c.pops = true → ∀ u c', cur u = some c' → c'.pops = false

def spsc (r : Ring SizeT) (producer consumer : Tid) :
    Sys (Op SizeT) Op.Res Empty Tid (Spsc.Call r.objSize) Spsc.Out (Image Tid) :=
  .ofFun exec (Spsc.body r) fun _ t c => t = if c.pushes then producer else consumer

/-- A run from the bytes `s₀` of a ring `g` is one of the ring model `S`. -/
structure RunsOn {Call Ret : Type} (S : Sys (Op SizeT) Op.Res Empty Tid Call Ret (Mem SizeT Tid))
    (g : Geometry) (r : Ring SizeT) (s₀ : Image Tid)
    (tr : List (Event (Op SizeT) Op.Res Tid Call Ret))
    (cf : Config (Op SizeT) Op.Res Empty Tid Call Ret (Image Tid)) : Prop where
  /-- It has touched neither the constants of the header nor what lies behind the ring. -/
  kept : ∀ b, (128 ≤ b ∧ b < 192) ∨ g.total ≤ b → cf.shared.data b = s₀.data b
  /-- The header still says what the calls have read there. -/
  header : Formatted g r cf.shared.data
  /-- It is a run of `S`, and the bytes hold the state that `S` is in. -/
  ring : ∃ m, Run S (.start (s₀.mem r)) tr ⟨m, cf.thread, cf.fresh⟩ ∧ Holds g r s₀.data cf.shared m

variable {g : Geometry} {r : Ring SizeT} {Path : Type} [DecidableEq Path] {hugeSize : SizeT → SizeT}
  {env : Env} {path : Path} {prot flag : CInt} {s : Os Path} {p : Addr} {f : FileId}
  {localHead localTail : Tid → SizeT}

omit [DecidableEq Tid] in
theorem exists_created (localHead localTail : Tid → SizeT)
    (hc : Creates hugeSize env g path prot flag s p)
    (hf : (g.after hugeSize env path prot flag s).files.named path = some f) :
    ∃ d fd, (⟨((g.after hugeSize env path prot flag s).files.file f).data, localHead, localTail⟩ :
      Image Tid) = created d prot fd localHead localTail g := by
  obtain ⟨f', d, fd, hname, -, hdata⟩ := hc.toMakes.file
  rw [if_pos hc.shared] at hdata
  obtain rfl : f' = f := Option.some.inj (hname.symm.trans hf)
  refine ⟨d, fd, ?_⟩
  rw [created, ← hdata]
  rfl

/-- Programs that stay within the ring do to its bytes what they do to the ring. -/
theorem represents {Call Ret : Type} {body : Call → RingProg SizeT Ret}
    {allow : (Tid → Option Call) → Tid → Call → Prop} (hg : g.Valid)
    (hr : getBufRing g.objNum g.objSize = some r) (hall : ∀ a, (body a).All (Within g r))
    (d : Data) (fd : CInt) :
    Represents (Sys.ofFun Image.exec body allow) (Sys.ofFun RingBuf.exec body allow) (Within g r)
      (Holds g r (created d prot fd localHead localTail g).data) :=
  .ofFun (fun ho h => h.exec (formatted hg hr d prot fd) (total_lt hg hr) ho) hall

/-- So their runs on the bytes are runs on the ring. -/
theorem runsOn {Call Ret : Type} {body : Call → RingProg SizeT Ret}
    {allow : (Tid → Option Call) → Tid → Call → Prop} {d : Data} {fd : CInt}
    {tr : List (Event (Op SizeT) Op.Res Tid Call Ret)}
    {cf : Config (Op SizeT) Op.Res Empty Tid Call Ret (Image Tid)} (hg : g.Valid)
    (hr : getBufRing g.objNum g.objSize = some r) (hall : ∀ a, (body a).All (Within g r))
    (h : Run (.ofFun exec body allow) (.start (created d prot fd localHead localTail g)) tr cf) :
    RunsOn (.ofFun RingBuf.exec body allow) g r (created d prot fd localHead localTail g) tr
      cf := by
  obtain ⟨m, hrun, hm⟩ := (represents hg hr hall d fd).run (holds_mem g r _) h
  refine ⟨fun b hb => hm.kept b ?_, hm.formatted (formatted hg hr d prot fd), m, hrun, hm⟩
  rw [total_eq hg hr]
  exact hb

/-- Two objects of a cache line. -/
def tiny (kind : RingBufSlot) : Geometry := ⟨2, 64, kind⟩

theorem tiny_valid (kind : RingBufSlot) : (tiny kind).Valid := by
  cases kind <;> exact ⟨rfl, by unfold Setup.SizesFit; decide⟩

theorem tiny_creates (kind : RingBufSlot) :
    Creates id .smooth (tiny kind) () (Setup.mapShm ||| Setup.mapNew) 0 .boot 1 := by
  cases kind <;> exact ⟨⟨rfl, rfl, rfl, rfl, rfl, rfl⟩, rfl⟩

/-- The mapping of its file. -/
def tinyImage (kind : RingBufSlot) : Image Bool :=
  ⟨(((tiny kind).after id .smooth () (Setup.mapShm ||| Setup.mapNew) 0 .boot).files.file 0).data,
    fun _ => 0, fun _ => 0⟩

/-! ## Mpmc -/

section Mpmc

variable {tr : List (Mpmc.Ev SizeT Tid r.objSize)}
  {cf : Config (Op SizeT) Op.Res Empty Tid (Mpmc.Call r.objSize) Ret (Image Tid)}

omit [DecidableEq Tid] in
theorem fresh_mpmc (hg : g.Valid) (hr : getBufRing g.objNum g.objSize = some r)
    (hk : g.kind = .mpmcSlot) (d : Data) (fd : CInt) :
    Mpmc.Fresh r ((created d prot fd localHead localTail g).mem r) where
  head := head_created hg ..
  tail := tail_created hg ..
  slot i hi := by
    rw [slot_created hg hr _ _ _ _ _ (by rw [hk]; rfl) hi, hk]
    rfl

/-- Threads on the file of a new Mpmc ring run on a fresh ring. -/
theorem mpmc_runsOn (hg : g.Valid) (hr : getBufRing g.objNum g.objSize = some r)
    (hk : g.kind = .mpmcSlot) (hc : Creates hugeSize env g path prot flag s p)
    (hf : (g.after hugeSize env path prot flag s).files.named path = some f)
    (h : Run (mpmc r Tid) (.start ⟨((g.after hugeSize env path prot flag s).files.file f).data,
      localHead, localTail⟩) tr cf) :
    RunsOn (Mpmc.sys r Tid) g r ⟨((g.after hugeSize env path prot flag s).files.file f).data,
      localHead, localTail⟩ tr cf ∧
    Mpmc.Fresh r (Image.mem r ⟨((g.after hugeSize env path prot flag s).files.file f).data,
      localHead, localTail⟩) := by
  obtain ⟨d, fd, hs⟩ := exists_created localHead localTail hc hf
  rw [hs] at h ⊢
  exact ⟨runsOn hg hr (all_mpmc (by rw [hk]; rfl)) h, fresh_mpmc hg hr hk d fd⟩

/-- **The Mpmc ring is linearizable on the bytes of its file.** -/
theorem mpmc_bytes (hg : g.Valid) (hr : getBufRing g.objNum g.objSize = some r)
    (hk : g.kind = .mpmcSlot) (hc : Creates hugeSize env g path prot flag s p)
    (hf : (g.after hugeSize env path prot flag s).files.named path = some f)
    (h : Run (mpmc r Tid) (.start ⟨((g.after hugeSize env path prot flag s).files.file f).data,
      localHead, localTail⟩) tr cf)
    (hlt : (Mpmc.pushClaims tr).length < 2 ^ 63) :
    RunsOn (Mpmc.sys r Tid) g r ⟨((g.after hugeSize env path prot flag s).files.file f).data,
      localHead, localTail⟩ tr cf ∧
    Linearized r.cap [] Mpmc.Effect Mpmc.Returns tr ((Mpmc.queueOps r.objSize).lin [] tr).acts := by
  obtain ⟨hon, hfresh⟩ := mpmc_runsOn hg hr hk hc hf h
  obtain ⟨m, hrun, -⟩ := hon.ring
  exact ⟨hon, hfresh.linearized hrun hlt⟩

/-- A push and a pop on the file of a ring that has just been created. -/
theorem mpmc_bytes_pushPop :
    RunsOn (Mpmc.sys tinyRing Bool) (tiny .mpmcSlot) tinyRing (tinyImage .mpmcSlot)
      (seqTrace exec (Mpmc.body tinyRing) Mpmc.pushPop 0 (tinyImage .mpmcSlot))
      ⟨seqState exec (Mpmc.body tinyRing) Mpmc.pushPop (tinyImage .mpmcSlot), fun _ => .idle, 2⟩ :=
  (mpmc_bytes (tiny_valid .mpmcSlot) rfl rfl (tiny_creates .mpmcSlot) rfl
    (Run.seq Mpmc.pushPop (fun _ _ => trivial) 0 _) (by decide)).1

end Mpmc

/-! ## Mpsc -/

section Mpsc

variable {tr : List (Mpsc.Ev Tid r.objSize)}
  {cf : Config (Op SizeT) Op.Res Empty Tid (Mpsc.Call r.objSize) Ret (Image Tid)}

omit [DecidableEq Tid] in
theorem fresh_mpsc (hg : g.Valid) (hr : getBufRing g.objNum g.objSize = some r)
    (hk : g.kind = .mpscSlot) (d : Data) (fd : CInt) :
    Mpsc.Fresh r ((created d prot fd localHead localTail g).mem r) where
  head := head_created hg ..
  tail := tail_created hg ..
  slot i hi := by
    rw [slot_created hg hr _ _ _ _ _ (by rw [hk]; rfl) hi, hk]
    rfl

theorem mpsc_runsOn (hg : g.Valid) (hr : getBufRing g.objNum g.objSize = some r)
    (hk : g.kind = .mpscSlot) (hc : Creates hugeSize env g path prot flag s p)
    (hf : (g.after hugeSize env path prot flag s).files.named path = some f)
    (h : Run (mpsc r Tid) (.start ⟨((g.after hugeSize env path prot flag s).files.file f).data,
      localHead, localTail⟩) tr cf) :
    RunsOn (Mpsc.sys r Tid) g r ⟨((g.after hugeSize env path prot flag s).files.file f).data,
      localHead, localTail⟩ tr cf ∧
    Mpsc.Fresh r (Image.mem r ⟨((g.after hugeSize env path prot flag s).files.file f).data,
      localHead, localTail⟩) := by
  obtain ⟨d, fd, hs⟩ := exists_created localHead localTail hc hf
  rw [hs] at h ⊢
  exact ⟨runsOn hg hr (all_mpsc (by rw [hk]; rfl)) h, fresh_mpsc hg hr hk d fd⟩

/-- **The Mpsc ring is linearizable on the bytes of its file.** -/
theorem mpsc_bytes (hg : g.Valid) (hr : getBufRing g.objNum g.objSize = some r)
    (hk : g.kind = .mpscSlot) (hc : Creates hugeSize env g path prot flag s p)
    (hf : (g.after hugeSize env path prot flag s).files.named path = some f)
    (h : Run (mpsc r Tid) (.start ⟨((g.after hugeSize env path prot flag s).files.file f).data,
      localHead, localTail⟩) tr cf)
    (hlt : (Mpsc.pushClaims tr).length < 2 ^ 63) :
    RunsOn (Mpsc.sys r Tid) g r ⟨((g.after hugeSize env path prot flag s).files.file f).data,
      localHead, localTail⟩ tr cf ∧
    Linearized r.cap [] Mpsc.Effect Mpsc.Returns tr ((Mpsc.queueOps r.objSize).lin [] tr).acts := by
  obtain ⟨hon, hfresh⟩ := mpsc_runsOn hg hr hk hc hf h
  obtain ⟨m, hrun, -⟩ := hon.ring
  exact ⟨hon, hfresh.linearized hrun hlt⟩

theorem mpsc_bytes_pushPop :
    RunsOn (Mpsc.sys tinyRing Bool) (tiny .mpscSlot) tinyRing (tinyImage .mpscSlot)
      (seqTrace exec (Mpsc.body tinyRing) Mpsc.pushPop 0 (tinyImage .mpscSlot))
      ⟨seqState exec (Mpsc.body tinyRing) Mpsc.pushPop (tinyImage .mpscSlot), fun _ => .idle, 2⟩ :=
  (mpsc_bytes (tiny_valid .mpscSlot) rfl rfl (tiny_creates .mpscSlot) rfl
    (Run.seq Mpsc.pushPop (fun _ _ _ _ _ h => by cases h) 0 _) (by decide)).1

end Mpsc

/-! ## Spsc -/

section Spsc

variable {producer consumer : Tid} {tr : List (Spsc.Ev Tid r.objSize)}
  {cf : Config (Op SizeT) Op.Res Empty Tid (Spsc.Call r.objSize) Spsc.Out (Image Tid)}

omit [DecidableEq Tid] in
theorem start_spsc (hg : g.Valid) (hproducer : localTail producer = 0)
    (hconsumer : localHead consumer = 0) (d : Data) (fd : CInt) :
    Spsc.Start r producer consumer 0 [] ((created d prot fd localHead localTail g).mem r) where
  head := head_created hg ..
  tail := tail_created hg ..
  room := Nat.zero_le _
  stored := .nil
  cacheTail := ⟨0, hproducer, Nat.le_refl 0, Nat.zero_le _⟩
  cacheHead := ⟨0, hconsumer, Nat.le_refl 0, Nat.le_refl 0⟩

theorem spsc_runsOn (hg : g.Valid) (hr : getBufRing g.objNum g.objSize = some r)
    (hc : Creates hugeSize env g path prot flag s p)
    (hf : (g.after hugeSize env path prot flag s).files.named path = some f)
    (hproducer : localTail producer = 0) (hconsumer : localHead consumer = 0)
    (h : Run (spsc r producer consumer)
      (.start ⟨((g.after hugeSize env path prot flag s).files.file f).data, localHead, localTail⟩)
      tr cf) :
    RunsOn (Spsc.sys r producer consumer) g r
      ⟨((g.after hugeSize env path prot flag s).files.file f).data, localHead, localTail⟩ tr cf ∧
    Spsc.Start r producer consumer 0 [] (Image.mem r
      ⟨((g.after hugeSize env path prot flag s).files.file f).data, localHead, localTail⟩) := by
  obtain ⟨d, fd, hs⟩ := exists_created localHead localTail hc hf
  rw [hs] at h ⊢
  exact ⟨runsOn hg hr all_spsc h, start_spsc hg hproducer hconsumer d fd⟩

/-- **The Spsc ring is linearizable on the bytes of its file**, for runs of any length. -/
theorem spsc_bytes (hg : g.Valid) (hr : getBufRing g.objNum g.objSize = some r)
    (hc : Creates hugeSize env g path prot flag s p)
    (hf : (g.after hugeSize env path prot flag s).files.named path = some f)
    (hproducer : localTail producer = 0) (hconsumer : localHead consumer = 0)
    (h : Run (spsc r producer consumer)
      (.start ⟨((g.after hugeSize env path prot flag s).files.file f).data, localHead, localTail⟩)
      tr cf) :
    RunsOn (Spsc.sys r producer consumer) g r
      ⟨((g.after hugeSize env path prot flag s).files.file f).data, localHead, localTail⟩ tr cf ∧
    Linearized r.cap [] Spsc.Effect (Spsc.Returns 0) tr
      ((Spsc.queueOps r.objSize).lin [] tr).acts := by
  obtain ⟨hon, hstart⟩ := spsc_runsOn hg hr hc hf hproducer hconsumer h
  obtain ⟨m, hrun, -⟩ := hon.ring
  exact ⟨hon, hstart.linearized hrun⟩

theorem spsc_bytes_pushPop :
    RunsOn (Spsc.sys tinyRing true false) (tiny .noSlot) tinyRing (tinyImage .noSlot)
      (seqTrace exec (Spsc.body tinyRing) Spsc.pushPop 0 (tinyImage .noSlot))
      ⟨seqState exec (Spsc.body tinyRing) Spsc.pushPop (tinyImage .noSlot), fun _ => .idle, 4⟩ :=
  (spsc_bytes (tiny_valid .noSlot) rfl (tiny_creates .noSlot) rfl
    (rfl : (tinyImage .noSlot).localTail true = 0) (rfl : (tinyImage .noSlot).localHead false = 0)
    (Run.seq Spsc.pushPop (by decide) 0 _)).1

end Spsc

end Image

end RingBuf
