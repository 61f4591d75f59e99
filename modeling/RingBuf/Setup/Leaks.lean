import RingBuf.Setup.Errors

/-!
# What a failed constructor leaves behind

A constructor that returns `NULL` should hold nothing that it did not hold before, and leave no
file that was not there. It keeps to this at the exits where it has not opened a file yet, and
where `mmap` fails on a file that existed or has no name; all other exits leave something
(`nothingLeft_iff`).
-/

namespace RingBuf

open Conc

namespace Setup

variable {Path : Type}

/-- Nothing in `s'` is held that was not held in `s`, and no file has a name that had none. -/
structure NothingLeft (s s' : Os Path) : Prop where
  fds : ∀ fd, s.proc.fds fd = none → s'.proc.fds fd = none
  maps : ∀ p, s.proc.maps p = none → s'.proc.maps p = none
  heap : ∀ p, s.proc.heap p = none → s'.proc.heap p = none
  named : ∀ path, s.files.named path = none → s'.files.named path = none

theorem NothingLeft.refl (s : Os Path) : NothingLeft s s :=
  ⟨fun _ => id, fun _ => id, fun _ => id, fun _ => id⟩

theorem NothingLeft.fail {s s' : Os Path} (h : NothingLeft s s') (e : Int) :
    NothingLeft s (s'.fail e) :=
  ⟨h.fds, h.maps, h.heap, h.named⟩

section Conditions

variable [DecidableEq Path] (hugeSize : SizeT → SizeT) (env : Env) (a : Args Path) (s : Os Path)
  (c : Ctor)

/-- `get_buf_shm` opens the file of a ring, and then refuses it, fails to size it, or has given
it a name that it cannot be mapped under. -/
def ShmLeaks (totalSz : SizeT) (flag : CInt) (shmPath : Option Path) (new : Bool) : Prop :=
  (∃ fd, s.proc.newFd env.fd = .ok fd) ∧
    if new then
      (∃ e, env.truncTo (mapLen hugeSize totalSz flag) = .error e) ∨
        (∃ path, shmPath = some path ∧ s.files.named path = none) ∧
          ∃ e, s.proc.newMap env.mmap (mapLen hugeSize totalSz flag) = .error e
    else shmPath.isSome ∧ ((∃ e, env.fstat = .error e) ∨ s.foundSize shmPath = 0 ∨
      s.foundSize shmPath ≠ mapLen hugeSize totalSz flag)

/-- A constructor runs into such an exit of `get_buf_shm`. -/
def FileLeaks : Prop :=
  Accepts a c ∧ has a.prot (mapMalloc ||| mapShm) = true ∧ useMalloc a.prot = false ∧
    ShmLeaks hugeSize env s (c.totalSize a.objNum a.objSize) a.flag a.shmPath (needNew a.prot)

end Conditions

section Files

variable {s s' : Os Path}

theorem not_nothingLeft_of_fd {fd : CInt} (f : FileId) (h : s.proc.fds fd = none)
    (h' : s'.proc.fds fd = some f) : ¬NothingLeft s s' := by
  intro hn
  rw [hn.fds fd h] at h'
  cases h'

end Files

variable [DecidableEq Path] {hugeSize : SizeT → SizeT} {env : Env} {a : Args Path}
  {s s' : Os Path} {c : Ctor}

theorem opened_left {path : Option Path} {fd : CInt} {e : Int} (h : s.proc.newFd env.fd = .ok fd) :
    ¬NothingLeft s ((s.opened path fd).fail e) :=
  not_nothingLeft_of_fd (s.target path) (Proc.newFd_ok h).2 (by
    show (s.opened path fd).proc.fds fd = _
    simp)

/-- The exits of `get_buf_shm` that leave something behind. -/
theorem ShmExit.leaves_nothing_iff {totalSz : SizeT} {flag : CInt} {shmPath : Option Path}
    {new : Bool} (h : ShmExit hugeSize env totalSz flag shmPath s new none s') :
    NothingLeft s s' ↔ ¬ShmLeaks hugeSize env s totalSz flag shmPath new := by
  cases h with
  | noPath hn hp =>
    refine iff_of_true ((NothingLeft.refl s).fail _) fun hl => ?_
    rw [hn, hp] at hl
    cases hl.2.1
  | openFail hpath hfd =>
    refine iff_of_true ((NothingLeft.refl s).fail _) fun ⟨⟨fd, hfd'⟩, _⟩ => ?_
    cases hfd.symm.trans hfd'
  | truncFail hfd hn ht =>
    refine iff_of_false (opened_left hfd) (Classical.not_not.2 ⟨⟨_, hfd⟩, ?_⟩)
    rw [if_pos hn]
    exact .inl ⟨_, ht⟩
  | fstatFail hfd hn hpath ht =>
    refine iff_of_false (opened_left hfd) (Classical.not_not.2 ⟨⟨_, hfd⟩, ?_⟩)
    rw [hn]
    exact ⟨hpath, .inl ⟨_, ht⟩⟩
  | notExists hfd hn hpath hst h₀ =>
    refine iff_of_false (opened_left hfd) (Classical.not_not.2 ⟨⟨_, hfd⟩, ?_⟩)
    rw [hn]
    exact ⟨hpath, .inr (.inl h₀)⟩
  | sizeError hfd hn hpath hst h₀ hne =>
    refine iff_of_false (opened_left hfd) (Classical.not_not.2 ⟨⟨_, hfd⟩, ?_⟩)
    rw [hn]
    exact ⟨hpath, .inr (.inr hne)⟩
  | @mmapFail fd e hfd hf hm =>
    -- The descriptor is closed again; what may be left is a new name.
    have hfds := closed_fds shmPath (Proc.newFd_ok hfd).2
    by_cases hname : ∃ path, shmPath = some path ∧ s.files.named path = none
    · obtain ⟨path, rfl, hnone⟩ := hname
      cases new with
      | true =>
        refine iff_of_false (fun hl => ?_)
          (Classical.not_not.2 ⟨⟨_, hfd⟩, .inr ⟨⟨path, rfl, hnone⟩, e, hm⟩⟩)
        have hsome := provide_named_of_none hnone
        have hleft := hl.named path hnone
        change (s.provide (some path)).files.named path = none at hleft
        rw [hsome] at hleft
        cases hleft
      | false => exact absurd (foundSize_of_none hnone) hf.2.2.1
    · have hnamed : (s.provide shmPath).files.named = s.files.named :=
        provide_named fun x hx hnone => hname ⟨x, hx, hnone⟩
      refine iff_of_true ⟨fun x hx => ?_, fun p hp => ?_, fun p hp => ?_, fun x hx => ?_⟩ ?_
      · show Function.update ((s.opened shmPath fd).sized _ _ new).proc.fds fd none x = none
        rw [Os.sized_proc, hfds, hx]
      · show ((s.opened shmPath fd).sized _ _ new).proc.maps p = none
        rw [Os.sized_proc, Os.opened_maps, hp]
      · show ((s.opened shmPath fd).sized _ _ new).proc.heap p = none
        rw [Os.sized_proc, Os.opened_heap, hp]
      · show ((s.opened shmPath fd).sized _ _ new).files.named x = none
        rw [Os.sized_named]
        exact (congrFun hnamed x).trans hx
      · intro ⟨_, hl⟩
        cases new with
        | true =>
          obtain ⟨e, he⟩ | ⟨hl, _⟩ := hl
          · exact not_fileOk_of_trunc he hf
          · exact hname hl
        | false =>
          obtain ⟨_, ⟨e, he⟩ | h₀ | hne⟩ := hl
          · exact hf.noError ⟨e, he⟩
          · exact hf.2.2.1 h₀
          · exact hne hf.2.2.2

/-- Mapping the file of a ring leaks nothing. -/
theorem ShmExit.not_leaks {totalSz : SizeT} {flag : CInt} {shmPath : Option Path} {new : Bool}
    {m : Addr × CInt} (h : ShmExit hugeSize env totalSz flag shmPath s new (some m) s') :
    ¬ShmLeaks hugeSize env s totalSz flag shmPath new := by
  cases h with
  | mapped hfd hf hm =>
    intro ⟨_, hl⟩
    cases new with
    | true =>
      obtain ⟨e, he⟩ | ⟨_, e, he⟩ := hl
      · exact not_fileOk_of_trunc he hf
      · cases hm.symm.trans he
    | false =>
      obtain ⟨_, ⟨e, he⟩ | h₀ | hne⟩ := hl
      · exact hf.noError ⟨e, he⟩
      · exact hf.2.2.1 h₀
      · exact hne hf.2.2.2

theorem MemExit.held {totalSz : SizeT} {prot flag : CInt} {shmPath : Option Path} {p : Addr}
    {fd : CInt} (h : MemExit hugeSize env totalSz prot flag shmPath s (some (p, fd)) s') :
    s.proc.heap p = none ∧ s.proc.maps p = none ∧
      ((s'.proc.heap p).isSome ∨ (s'.proc.maps p).isSome) := by
  cases h with
  | malloc _ _ hp =>
    have hfree := Proc.newAddr_ok hp
    refine ⟨hfree.1, hfree.2, .inl ?_⟩
    simp [Os.setHeap]
  | shm _ _ h =>
    cases h with
    | mapped _ _ hm =>
      have hfree := Proc.newAddr_ok (Proc.newMap_ok hm).2
      refine ⟨hfree.1, hfree.2, .inr ?_⟩
      simp [Os.setMap]

omit [DecidableEq Path] in
theorem not_nothingLeft_of_mem {p : Addr} (hheap : s.proc.heap p = none)
    (hmaps : s.proc.maps p = none)
    (h : (s'.proc.heap p).isSome ∨ (s'.proc.maps p).isSome) : ¬NothingLeft s s' := by
  intro hn
  rw [hn.heap p hheap, hn.maps p hmaps] at h
  simp at h

/-- A failed constructor leaves nothing behind as long as `get_buf_shm` has not opened a file in
vain, and the initialisation of the synchronisation objects has not failed; and no longer. -/
theorem nothingLeft_iff (hugeSize : SizeT → SizeT) (env : Env) (a : Args Path) (s : Os Path)
    (c : Ctor) :
    (((construct hugeSize a c).run (exec env) s).1 = none →
      NothingLeft s ((construct hugeSize a c).run (exec env) s).2) ↔
    ¬FileLeaks hugeSize env a s c ∧ ¬SyncFails hugeSize env a s c := by
  have h := run_construct hugeSize env a s c
  generalize (construct hugeSize a c).run (exec env) s = x at h ⊢
  obtain ⟨r, s'⟩ := x
  change GetExit hugeSize env a s c r s' at h
  have left : ∀ e, NothingLeft s (s.fail e) := (NothingLeft.refl s).fail
  cases h with
  | capacity hcap =>
    refine iff_of_true (fun _ => left _) ⟨fun hf => ?_, fun hs => ?_⟩
    · cases hcap.symm.trans hf.1.1
    · cases hcap.symm.trans hs.2.1
  | slotNa hc hcap hna =>
    refine iff_of_true (fun _ => left _) ⟨fun hf => ?_, fun hs => ?_⟩
    · cases hna.symm.trans (hf.1.2 _ hc)
    · cases hc.symm.trans hs.1
  | noMemory hcap hna hm =>
    have hs : ¬SyncFails hugeSize env a s c := fun hs => hm.fails.1 hs.2.2.2.2
    cases hm with
    | noMapping hmap =>
      refine iff_of_true (fun _ => left _) ⟨fun hf => ?_, hs⟩
      cases hmap.symm.trans hf.2.1
    | mallocFail _ hmal _ =>
      refine iff_of_true (fun _ => left _) ⟨fun hf => ?_, hs⟩
      cases hmal.symm.trans hf.2.2.1
    | shm hmap hmal hm =>
      have hleft := hm.leaves_nothing_iff
      refine ⟨fun hl => ⟨fun hf => hleft.1 (hl rfl) hf.2.2.2, hs⟩, fun hf _ => hleft.2 fun hl => ?_⟩
      exact hf.1 ⟨⟨hcap, hna⟩, hmap, hmal, hl⟩
  | attached hcap hna hm hn =>
    refine iff_of_true (fun hr => nomatch hr) ⟨fun hf => ?_, fun hs => ?_⟩
    · cases hm with
      | malloc _ hmal _ => cases hmal.symm.trans hf.2.2.1
      | shm _ _ hm => exact hm.not_leaks hf.2.2.2
    · cases hn.symm.trans hs.2.2.1
  | @syncFail p fd s'' hc hcap hm hn hs =>
    have hheld := hm.held
    have hk := Os.kept_syncFailed env s'' p
    refine iff_of_false (fun hl => ?_) fun hf => hf.2 ⟨hc, hcap, hn, hs, (hm.ok rfl).1⟩
    refine not_nothingLeft_of_mem hheld.1 hheld.2.1 ?_ (hl rfl)
    rw [hk.heap, hk.maps]
    exact hheld.2.2
  | created hcap hna hm hn hs =>
    refine iff_of_true (fun hr => nomatch hr) ⟨fun hf => ?_, fun hf => hf.2.2.2.1 (hs hf.1)⟩
    cases hm with
    | malloc _ hmal _ => cases hmal.symm.trans hf.2.2.1
    | shm _ _ hm => exact hm.not_leaks hf.2.2.2

/-- Attaching to a path that is not there creates a file, and keeps it open. -/
theorem attach_leaves :
    ((construct id (⟨2, 64, some (), mapShm ||| mapExists, 0⟩ : Args Unit) (.ring noSlot)).run
      (exec .smooth) .boot).1 = none ∧
    ¬NothingLeft .boot ((construct id (⟨2, 64, some (), mapShm ||| mapExists, 0⟩ : Args Unit)
      (.ring noSlot)).run (exec .smooth) .boot).2 := by
  refine ⟨by rfl, fun h => ?_⟩
  have hfd := h.fds 3 rfl
  have hopen : ((construct id (⟨2, 64, some (), mapShm ||| mapExists, 0⟩ : Args Unit)
      (.ring noSlot)).run (exec .smooth) .boot).2.proc.fds 3 = some 0 := by rfl
  rw [hopen] at hfd
  cases hfd

end Setup

end RingBuf
