import RingBuf.Setup.Exits

/-!
# What the explicit-error constructors return

`Get_SpscRingBuf_e` and its siblings return `errno` when the constructor fails. What the code
finds wrong by itself it stores there as a negative code. A failing call of the system stores a
positive number, and a failing `pthread_*_init` stores nothing, so `errno` is still what it was
before the call (`reports_iff`).
-/

namespace RingBuf

open Conc

namespace Setup

variable {Path : Type} [DecidableEq Path]

/-- The returned value and `*out` tell the same: success with a ring, or a negative code
without. -/
def Reports (x : Int × Option Addr) : Prop :=
  (x.1 = ringbufSuccess ↔ x.2.isSome) ∧ (x.2 = none → x.1 < 0)

section Conditions

variable (hugeSize : SizeT → SizeT) (env : Env) (a : Args Path) (s : Os Path) (c : Ctor)

/-- The constructor accepts its capacity and slot kind. -/
def Accepts : Prop :=
  capacityWrong a.objNum = false ∧ ∀ useSlot, c = .ring useSlot → useSlotNa useSlot = false

/-- A constructor makes a call of the system that fails. -/
def CallFails : Prop :=
  Accepts a c ∧
    SystemFails hugeSize env (c.totalSize a.objNum a.objSize) a.prot a.flag a.shmPath s

/-- A constructor obtains its memory, and cannot set up a synchronisation object there. -/
def SyncFails : Prop :=
  c = .block ∧ capacityWrong a.objNum = false ∧ needNew a.prot = true ∧ ¬env.Syncs ∧
    MemOk hugeSize env (c.totalSize a.objNum a.objSize) a.prot a.flag a.shmPath s

end Conditions

variable {hugeSize : SizeT → SizeT} {env : Env} {a : Args Path} {s s' : Os Path} {c : Ctor}
  {p : Addr}

/-- A constructor that returns a ring has met no failure. -/
theorem GetExit.ok (h : GetExit hugeSize env a s c (some p) s') :
    ¬CallFails hugeSize env a s c ∧ ¬SyncFails hugeSize env a s c := by
  cases h with
  | attached hcap hna hm hn =>
    refine ⟨fun hf => (hm.ok rfl).2.1 hf.2, fun hf => ?_⟩
    cases hn.symm.trans hf.2.2.1
  | created hcap hna hm hn hs =>
    exact ⟨fun hf => (hm.ok rfl).2.1 hf.2, fun hf => hf.2.2.2.1 (hs hf.1)⟩

theorem GetExit.errno (h : GetExit hugeSize env a s c none s') :
    CallFails hugeSize env a s c ∧ 0 < s'.proc.errno ∨
    SyncFails hugeSize env a s c ∧ ¬CallFails hugeSize env a s c ∧
      s'.proc.errno = s.proc.errno ∨
    ¬CallFails hugeSize env a s c ∧ ¬SyncFails hugeSize env a s c ∧ s'.proc.errno < 0 := by
  cases h with
  | capacity hcap =>
    refine .inr (.inr ⟨fun hf => ?_, fun hf => ?_, (by decide : (-106 : Int) < 0)⟩)
    · cases hcap.symm.trans hf.1.1
    · cases hcap.symm.trans hf.2.1
  | slotNa hc hcap hna =>
    refine .inr (.inr ⟨fun hf => ?_, fun hf => ?_, (by decide : (-111 : Int) < 0)⟩)
    · cases hna.symm.trans (hf.1.2 _ hc)
    · cases hc.symm.trans hf.1
  | noMemory hcap hna hm =>
    obtain ⟨hno, ⟨hf, he⟩ | ⟨hf, he⟩⟩ := hm.fails
    · exact .inl ⟨⟨⟨hcap, hna⟩, hf⟩, he⟩
    · exact .inr (.inr ⟨fun hc => hf hc.2, fun hs => hno hs.2.2.2.2, he⟩)
  | syncFail hc hcap hm hn hs =>
    have hok := hm.ok rfl
    refine .inr (.inl ⟨⟨hc, hcap, hn, hs, hok.1⟩, fun hf => hok.2.1 hf.2, ?_⟩)
    rw [(Os.kept_syncFailed ..).errno, hok.2.2]

theorem run_explicitError (get : SysProg Path (Option Addr)) :
    ((explicitError true get).run (exec env) s).1 =
      match get.run (exec env) s with
      | (none, s') => (s'.proc.errno, none)
      | (some p, _) => (ringbufSuccess, some p) := by
  simp only [explicitError, Bool.not_true, Bool.false_eq_true, if_false, Prog.run_bind]
  generalize get.run (exec env) s = x
  obtain ⟨r, s'⟩ := x
  cases r <;> rfl

/-- An explicit-error constructor reports its outcome as long as no call of the system fails,
and the initialisation of a synchronisation object fails only when `errno` was negative before;
and no longer. -/
theorem reports_iff (hugeSize : SizeT → SizeT) (env : Env) (a : Args Path) (s : Os Path)
    (k : Kind) : Reports ((getRingBufE hugeSize true a k).run (exec env) s).1 ↔
      ¬CallFails hugeSize env a s k.ctor ∧
        (SyncFails hugeSize env a s k.ctor → s.proc.errno < 0) := by
  rw [getRingBufE_eq, run_explicitError]
  have h := run_construct hugeSize env a s k.ctor
  generalize (construct hugeSize a k.ctor).run (exec env) s = x at h ⊢
  obtain ⟨r, s'⟩ := x
  cases r with
  | some p =>
    have hok := h.ok
    refine iff_of_true ⟨?_, fun hp => nomatch hp⟩ ⟨hok.1, fun hf => absurd hf hok.2⟩
    simp
  | none =>
    have hreports : Reports (s'.proc.errno, none) ↔ s'.proc.errno < 0 := by
      refine ⟨fun hr => hr.2 rfl, fun hlt => ⟨?_, fun _ => hlt⟩⟩
      simp only [ringbufSuccess, Option.isSome_none, Bool.false_eq_true, iff_false]
      omega
    show Reports (s'.proc.errno, none) ↔ _
    rw [hreports]
    obtain ⟨hf, he⟩ | ⟨hs, hf, he⟩ | ⟨hf, hs, he⟩ := h.errno
    · exact iff_of_false (Int.not_lt.2 (Int.le_of_lt he)) fun hc => hc.1 hf
    · rw [he]
      exact ⟨fun hlt => ⟨hf, fun _ => hlt⟩, fun hc => hc.2 hs⟩
    · exact iff_of_true he ⟨hf, fun hc => absurd hc hs⟩

/-- A blocking ring on the heap whose mutex cannot be initialised (`EAGAIN`): the constructor
returns `RINGBUF_SUCCESS`, and no ring. -/
theorem misreports :
    ((getRingBufE id true (⟨2, 64, none, mapMalloc, 0⟩ : Args Unit) .block).run
      (exec { Env.smooth with syncInit := fun _ => 11 }) .boot).1 = (ringbufSuccess, none) ∧
    ¬Reports ((getRingBufE id true (⟨2, 64, none, mapMalloc, 0⟩ : Args Unit) .block).run
      (exec { Env.smooth with syncInit := fun _ => 11 }) .boot).1 := by
  have h : ((getRingBufE id true (⟨2, 64, none, mapMalloc, 0⟩ : Args Unit) .block).run
      (exec { Env.smooth with syncInit := fun _ => 11 }) .boot).1 = (ringbufSuccess, none) := by
    rfl
  refine ⟨h, fun hr => ?_⟩
  rw [h] at hr
  exact absurd (hr.2 rfl) (by decide)

end Setup

end RingBuf
