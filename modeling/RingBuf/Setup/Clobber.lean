import RingBuf.Setup.Writes

/-!
# Creating a ring over an existing one

`MAP_NEW` on a path that exists opens the file there, sizes it and stores a new header into it,
whatever it holds. The old ring survives only where the call fails early enough
(`intact_iff`).
-/

namespace RingBuf

open Conc Bytes

namespace Setup

variable {Path : Type}

/-- A file keeps its size and its bytes. -/
def Intact (f f' : File) : Prop :=
  f'.size = f.size ∧ ∀ i, i < f.size.toNat → f'.data i = f.data i

theorem Intact.refl (f : File) : Intact f f := ⟨rfl, fun _ _ => rfl⟩

theorem intact_resize_iff {f : File} {size : SizeT} : Intact f (f.resize size) ↔ f.size = size := by
  constructor
  · intro h
    exact h.1.symm
  · intro h
    refine ⟨h.symm, fun i hi => ?_⟩
    show (if i < min f.size.toNat size.toNat then f.data i else 0) = f.data i
    rw [if_pos]
    rw [← h, Nat.min_self]
    exact hi

variable [DecidableEq Path]

/-- A call with `MAP_SHM | MAP_NEW` fails before it changes the file `f` at its path: its capacity
is refused, the file cannot be opened or sized; or the new ring takes just as many bytes as the
file has, and it cannot be mapped, or is a blocking ring whose synchronisation objects cannot be
set up, and the bytes where they would go happen to be what the attempt leaves there. -/
def FailsEarly (hugeSize : SizeT → SizeT) (env : Env) (a : Args Path) (s : Os Path) (k : Kind)
    (f : FileId) : Prop :=
  let len := mapLen hugeSize (k.ctor.totalSize a.objNum a.objSize) a.flag
  capacityWrong a.objNum = true ∨ (∃ e, s.proc.newFd env.fd = .error e) ∨
    (∃ e, env.truncTo len = .error e) ∨
    (s.files.file f).size = len ∧ ((∃ e, s.proc.newMap env.mmap len = .error e) ∨
      k = .block ∧ ¬env.Syncs ∧ (backing (mapFlag a.flag) f = .shared f →
        ∀ i, i < (s.files.file f).size.toNat →
          syncResidue env (s.files.file f).data i = (s.files.file f).data i))

variable {hugeSize : SizeT → SizeT} {env : Env} {a : Args Path} {s s' : Os Path} {k : Kind}
  {path : Path} {f : FileId}

theorem useSlotNa_ctor {useSlot : CInt} (h : k.ctor = .ring useSlot) :
    useSlotNa useSlot = false := by
  cases k <;> cases h <;> rfl

omit [DecidableEq Path] in
theorem mapped_memory {p : Addr} (flag : CInt) (h : s.proc.heap p = none) :
    (backing flag f = .shared f ∧ (s.setMap p (some (backing flag f))).SharedAt p f) ∨
      (backing flag f ≠ .shared f ∧ (s.setMap p (some (backing flag f))).Isolated p) := by
  have hmap : (s.setMap p (some (backing flag f))).proc.maps p = some (backing flag f) :=
    Function.update_self ..
  by_cases hb : backing flag f = .shared f
  · exact .inl ⟨hb, h, hmap.trans (congrArg some hb)⟩
  · refine .inr ⟨hb, .inr ⟨_, hmap, fun g hg => ?_⟩⟩
    unfold backing at hb hg
    split_ifs at hb hg
    exact hb rfl

theorem GetExit.keeps_file_iff {r : Option Addr} (h : GetExit hugeSize env a s k.ctor r s')
    (hname : s.files.named path = some f) (hpath : a.shmPath = some path)
    (hprot : a.prot = mapShm ||| mapNew) :
    (r = none ∧ Intact (s.files.file f) (s'.files.file f)) ↔
      FailsEarly hugeSize env a s k f := by
  have hprov : s.provide a.shmPath = s := hpath ▸ provide_of_named hname
  have htarget : s.target a.shmPath = f := hpath ▸ target_of_named hname
  have hmal : useMalloc a.prot = false := hprot ▸ rfl
  have hnew : needNew a.prot = true := hprot ▸ rfl
  have hmap : has a.prot (mapMalloc ||| mapShm) = true := hprot ▸ rfl
  have hopen : ∀ fd, (s.opened a.shmPath fd).files = s.files := by
    intro fd
    rw [Os.opened_files, hprov]
  have hfile : ∀ fd len, ((s.opened a.shmPath fd).sized f len true).files.file f =
      (s.files.file f).resize len := by
    intro fd len
    rw [Os.file_sized, hopen]
  cases h with
  | capacity hcap => exact iff_of_true ⟨rfl, .refl _⟩ (.inl hcap)
  | slotNa hc hcap hna => cases (useSlotNa_ctor hc).symm.trans hna
  | noMemory hcap hna hm =>
    cases hm with
    | noMapping h => cases hmap.symm.trans h
    | mallocFail _ h _ => cases hmal.symm.trans h
    | shm _ _ hm =>
      rw [hnew] at hm
      cases hm with
      | noPath h => cases h
      | openFail _ hfd => exact iff_of_true ⟨rfl, .refl _⟩ (.inr (.inl ⟨_, hfd⟩))
      | @truncFail fd e hfd _ ht =>
        refine iff_of_true ⟨rfl, ?_⟩ (.inr (.inr (.inl ⟨e, ht⟩)))
        show Intact _ ((s.opened a.shmPath fd).files.file f)
        rw [hopen]
        exact .refl _
      | fstatFail _ h => cases h
      | notExists _ h => cases h
      | sizeError _ h => cases h
      | @mmapFail fd e hfd hf hm =>
        rw [htarget]
        show (_ ∧ Intact _ (((s.opened a.shmPath fd).sized f _ true).files.file f)) ↔ _
        rw [hfile, intact_resize_iff]
        refine ⟨fun hi => .inr (.inr (.inr ⟨hi.2, .inl ⟨e, hm⟩⟩)), ?_⟩
        rintro (hcap' | ⟨e, he⟩ | ⟨e, he⟩ | ⟨hs, -⟩)
        · cases hcap.symm.trans hcap'
        · cases hfd.symm.trans he
        · exact absurd hf (not_fileOk_of_trunc he)
        · exact ⟨rfl, hs⟩
  | attached _ _ _ hn => cases hnew.symm.trans hn
  | @syncFail p fd s'' hc hcap hm _ hs =>
    have hk : k = .block := by
      cases k <;> cases hc
      rfl
    cases hm with
    | malloc _ h _ => cases hmal.symm.trans h
    | shm _ _ hm =>
      rw [hnew] at hm
      cases hm with
      | mapped hfd hf hm =>
        have hheap := (Proc.newAddr_ok (Proc.newMap_ok hm).2).1
        have hearly : FailsEarly hugeSize env a s k f ↔
            (s.files.file f).size = mapLen hugeSize (k.ctor.totalSize a.objNum a.objSize) a.flag ∧
              (backing (mapFlag a.flag) f = .shared f → ∀ i, i < (s.files.file f).size.toNat →
                syncResidue env (s.files.file f).data i = (s.files.file f).data i) := by
          refine ⟨?_, fun h => .inr (.inr (.inr ⟨h.1, .inr ⟨hk, hs, h.2⟩⟩))⟩
          rintro (hcap' | ⟨e, he⟩ | ⟨e, he⟩ | ⟨hlen, ⟨e, he⟩ | ⟨-, -, hb⟩⟩)
          · cases hcap.symm.trans hcap'
          · cases hfd.symm.trans he
          · exact absurd hf (not_fileOk_of_trunc he)
          · cases hm.symm.trans he
          · exact ⟨hlen, hb⟩
        rw [hearly, htarget]
        have hheap' : ((s.opened a.shmPath fd).sized f (mapLen hugeSize
            (k.ctor.totalSize a.objNum a.objSize) a.flag) true).proc.heap p = none := by
          rw [Os.sized_proc, Os.opened_heap, hheap]
        obtain ⟨hb, hshared⟩ | ⟨hb, hiso⟩ := mapped_memory (mapFlag a.flag) hheap'
        · rw [hshared.syncFailed]
          change (_ ∧ Intact _ { ((s.opened a.shmPath fd).sized f _ true).files.file f with
            data := syncResidue env (((s.opened a.shmPath fd).sized f _ true).files.file f).data })
            ↔ _
          rw [hfile]
          refine ⟨fun h => ⟨h.2.1.symm, fun _ i hi => ?_⟩, fun h => ⟨rfl, h.1.symm, fun i hi => ?_⟩⟩
          · rw [← h.2.2 i hi]
            exact syncResidue_congr ((intact_resize_iff.2 h.2.1.symm).2 i hi).symm
          · refine Eq.trans ?_ (h.2 hb i hi)
            exact syncResidue_congr ((intact_resize_iff.2 h.1).2 i hi)
        · rw [hiso.syncFailed]
          change (_ ∧ Intact _ (((s.opened a.shmPath fd).sized f _ true).files.file f)) ↔ _
          rw [hfile, intact_resize_iff]
          exact ⟨fun h => ⟨h.2, fun h' => absurd h' hb⟩, fun h => ⟨rfl, h.1⟩⟩
  | created hcap hna hm _ hs =>
    refine iff_of_false (fun h => nomatch h.1) ?_
    cases hm with
    | malloc _ h _ => cases hmal.symm.trans h
    | shm _ _ hm =>
      rw [hnew] at hm
      cases hm with
      | mapped hfd hf hm =>
        rintro (hcap' | ⟨e, he⟩ | ⟨e, he⟩ | ⟨-, ⟨e, he⟩ | ⟨hk, hns, -⟩⟩)
        · cases hcap.symm.trans hcap'
        · cases hfd.symm.trans he
        · exact not_fileOk_of_trunc he hf
        · cases hm.symm.trans he
        · exact hns (hs (hk ▸ rfl))

/-- A call with `MAP_SHM | MAP_NEW` on a path that exists fails and keeps the file there intact
just when it fails early. -/
theorem intact_iff (hugeSize : SizeT → SizeT) (env : Env) (a : Args Path) (s : Os Path) (k : Kind)
    {path : Path} {f : FileId} (hname : s.files.named path = some f)
    (hpath : a.shmPath = some path) (hprot : a.prot = mapShm ||| mapNew) :
    (((getRingBuf hugeSize a k).run (exec env) s).1 = none ∧ Intact (s.files.file f)
      (((getRingBuf hugeSize a k).run (exec env) s).2.files.file f)) ↔
    FailsEarly hugeSize env a s k f := by
  rw [getRingBuf_eq]
  exact (run_construct _ _ _ _ k.ctor).keeps_file_iff hname hpath hprot

/-- A ring of two objects in a new file, with `head_` after the first push. -/
def pushedOnce : Os Unit :=
  ((getRingBuf id (⟨2, 64, some (), mapShm ||| mapNew, 0⟩ : Args Unit) .spsc).run
    (exec .smooth) .boot).2.write 1 Field.head.offset 8 (bytes (n := 8) 1)

theorem pushedOnce_named : pushedOnce.files.named () = some 0 := rfl

/-- Creating the same ring once more, when no more descriptors can be had. -/
theorem intact_iff_pushedOnce :
    (((getRingBuf id (⟨2, 64, some (), mapShm ||| mapNew, 0⟩ : Args Unit) .spsc).run
      (exec { Env.smooth with fd := .error emfile }) pushedOnce).1 = none ∧
      Intact (pushedOnce.files.file 0)
        (((getRingBuf id (⟨2, 64, some (), mapShm ||| mapNew, 0⟩ : Args Unit) .spsc).run
          (exec { Env.smooth with fd := .error emfile }) pushedOnce).2.files.file 0)) ↔
    FailsEarly id { Env.smooth with fd := .error emfile }
      (⟨2, 64, some (), mapShm ||| mapNew, 0⟩ : Args Unit) pushedOnce .spsc 0 :=
  intact_iff _ _ _ _ _ pushedOnce_named rfl rfl

/-- Creating the same ring once more succeeds, and the element is gone. -/
theorem clobbers :
    load 8 (pushedOnce.files.file 0).data Field.head.offset = 1 ∧
    ((getRingBuf id (⟨2, 64, some (), mapShm ||| mapNew, 0⟩ : Args Unit) .spsc).run
      (exec { Env.smooth with fd := .ok 4, mmap := .ok 2 }) pushedOnce).1 = some 2 ∧
    load 8 (((getRingBuf id (⟨2, 64, some (), mapShm ||| mapNew, 0⟩ : Args Unit) .spsc).run
      (exec { Env.smooth with fd := .ok 4, mmap := .ok 2 }) pushedOnce).2.files.file 0).data
      Field.head.offset = 0 := by
  refine ⟨by decide, by rfl, by decide⟩

end Setup

end RingBuf
