import RingBuf.Setup.Attach

/-!
# Deleting rings, in any number of processes

Processes create rings on shared paths, attach to them, use them and delete them, in any order. A
destructor closes the descriptor number that it finds in the header. The header is shared, so the
number is the one that the creator's process gave the file. A destructor closes the descriptor of
its own process's constructor just when the two numbers agree (`del_closes_iff`).
-/

namespace RingBuf

open Conc Bytes

namespace Setup

variable {Path Pid : Type}

/-! ## What a destructor does -/

/-- The offsets of the header fields of a kind. -/
def Kind.offset : Kind → Field → Nat
  | .block => Field.blockOffset
  | _ => Field.offset

/-- What the header of the ring at `p` says about the descriptor: that of a mapping, and which. -/
def Os.names (s : Os Path) (p : Addr) (k : Kind) (fd : CInt) : Prop :=
  s.int p (k.offset .mapType) = mapShm ∧ s.int p (k.offset .fd) = fd

theorem Os.data_write {s : Os Path} {p : Addr} {a n i : Nat} {image : Data}
    (h : ¬(a ≤ i ∧ i < a + n)) : (s.write p a n image).data p i = s.data p i := by
  unfold Os.write
  split
  case h_1 hp => simp [Os.data, Os.setHeap, hp, blit_of_not_mem h]
  case h_2 f hp hm => simp [Os.data, Os.setFile, hp, hm, blit_of_not_mem h]
  case h_3 f copy hp hm => simp [Os.data, Os.setMap, hp, hm, h]
  case h_4 d hp hm => simp [Os.data, Os.setMap, hp, hm, blit_of_not_mem h]
  case h_5 => rfl

variable [DecidableEq Path] (env : Env) (p : Addr) (s : Os Path)

/-- What giving the memory back does to the descriptors and the mappings, if the header says that
the ring is mapped, and if it says otherwise. -/
theorem run_release (offset : Field → Nat) :
    if s.int p (offset .mapType) = mapShm then
      ((release offset p).run (exec env) s).2.proc.fds =
          Function.update s.proc.fds (s.int p (offset .fd)) none ∧
        ((release offset p).run (exec env) s).2.proc.maps =
          Function.update s.proc.maps p none
    else ((release offset p).run (exec env) s).2.proc.fds = s.proc.fds := by
  unfold release
  rw [Prog.run_bind]
  have hload : (loadInt p (offset .mapType)).run (exec env) s =
      (s.int p (offset .mapType), s) := rfl
  simp only [hload]
  by_cases hm : s.int p (offset .mapType) = mapShm
  · simp only [if_pos hm]
    have hclose : (exec env (.close (s.int p (offset .fd))) s).2.proc.fds =
        Function.update s.proc.fds (s.int p (offset .fd)) none ∧
        (exec env (.close (s.int p (offset .fd))) s).2.proc.maps = s.proc.maps := by
      simp only [exec]
      split_ifs with hopen
      · exact ⟨rfl, rfl⟩
      · refine ⟨?_, rfl⟩
        rw [← Option.not_isSome_iff_eq_none.1 hopen, Function.update_eq_self]
        rfl
    refine ⟨hclose.1, ?_⟩
    rw [← hclose.2]
    rfl
  · simp only [if_neg hm]
    split_ifs <;> rfl

/-- The state once the synchronisation objects have been destroyed. -/
def Os.syncDestroyed (s : Os Path) : Os Path :=
  ((s.destroySync env p .mtx).destroySync env p .writeable).destroySync env p .readable

omit [DecidableEq Path] in
theorem Os.kept_syncDestroyed : Kept s (s.syncDestroyed env p) :=
  ((kept_write ..).trans (kept_write ..)).trans (kept_write ..)

omit [DecidableEq Path] in
theorem Os.load_syncDestroyed {n a : Nat} (h : 304 ≤ a) :
    load n ((s.syncDestroyed env p).data p) a = load n (s.data p) a := by
  refine load_congr fun i hi _ => ?_
  unfold syncDestroyed destroySync
  rw [data_write, data_write, data_write] <;> simp only [Sync.offset, Sync.size] <;> omega

/-- What a destructor does to the descriptors and the mappings. -/
theorem run_delRingBuf (k : Kind) :
    if s.int p (k.offset .mapType) = mapShm then
      ((delRingBuf (some p) k).run (exec env) s).2.proc.fds =
          Function.update s.proc.fds (s.int p (k.offset .fd)) none ∧
        ∀ q, q ≠ p → (((delRingBuf (some p) k).run (exec env) s).2.proc.maps q).isSome =
          (s.proc.maps q).isSome
    else ((delRingBuf (some p) k).run (exec env) s).2.proc.fds = s.proc.fds := by
  have hkeep : ∀ {m : Addr → Option Backing} {q}, q ≠ p → (Function.update m p none q) = m q :=
    fun hq => Function.update_of_ne hq ..
  cases k with
  | block =>
    have hk := s.kept_syncDestroyed env p
    have hint : ∀ a, 320 ≤ a → (s.syncDestroyed env p).int p a = s.int p a :=
      fun a ha => Os.load_syncDestroyed env p s (by omega)
    have h := run_release env p (s.syncDestroyed env p) Field.blockOffset
    rw [hint _ (by decide), hint _ (by decide), hk.fds] at h
    show if s.int p (Field.blockOffset .mapType) = mapShm then _ else _
    split_ifs at h ⊢ with hm
    · refine ⟨h.1, fun q hq => ?_⟩
      refine (congrArg Option.isSome (congrFun h.2 q)).trans ?_
      rw [hkeep hq, hk.maps]
    · exact h
  | _ =>
    have h := run_release env p s Field.offset
    show if s.int p (Field.offset .mapType) = mapShm then _ else _
    split_ifs at h ⊢ with hm
    · exact ⟨h.1, fun q hq => (congrArg Option.isSome (congrFun h.2 q)).trans (by rw [hkeep hq])⟩
    · exact h

variable {env p s}

/-! ## Processes and their rings -/

/-- A ring that a constructor has returned: its kind, and the descriptor that was opened for
it. -/
structure Handle where
  kind : Kind
  fd : CInt

/-- All processes, with the rings that each of them has. -/
structure World (Path Pid : Type) where
  files : Files Path
  proc : Pid → Proc
  rings : Pid → Addr → Option Handle

variable [DecidableEq Pid]

/-- What one process sees. -/
def World.view (w : World Path Pid) (pid : Pid) : Os Path := ⟨w.files, w.proc pid⟩

/-- One process has gone on. -/
def World.put (w : World Path Pid) (pid : Pid) (s : Os Path) : World Path Pid :=
  { w with
    files := s.files
    proc := Function.update w.proc pid s.proc }

/-- A process has got a ring, or has given one up. -/
def World.setRing (w : World Path Pid) (pid : Pid) (p : Addr) (r : Option Handle) :
    World Path Pid :=
  { w with rings := Function.update w.rings pid (Function.update (w.rings pid) p r) }

/-- The steps of a process: it calls a constructor on a shared path, in vain or not, calls a
destructor, opens or closes some other descriptor, or uses a ring. A call of a destructor is
shown. -/
inductive Step (hugeSize : SizeT → SizeT) : World Path Pid → Option (Pid × Addr × Handle) →
    World Path Pid → Prop
  | getFail {w pid env a k s'} : has a.prot mapShm = true → has a.prot mapMalloc = false →
      a.shmPath.isSome →
      (getRingBuf hugeSize a k).run (exec env) (w.view pid) = (none, s') →
      Step hugeSize w none (w.put pid s')
  | get {w pid env a k p fd s'} : has a.prot mapShm = true → has a.prot mapMalloc = false →
      a.shmPath.isSome → (w.proc pid).newFd env.fd = .ok fd →
      (getRingBuf hugeSize a k).run (exec env) (w.view pid) = (some p, s') →
      Step hugeSize w none ((w.put pid s').setRing pid p (some ⟨k, fd⟩))
  | del {w pid env p r s'} : w.rings pid p = some r →
      (delRingBuf (some p) r.kind).run (exec env) (w.view pid) = ((), s') →
      Step hugeSize w (some (pid, p, r)) ((w.put pid s').setRing pid p none)
  | openOther {w pid fd f} : (w.proc pid).fds fd = none →
      Step hugeSize w none (w.put pid ((w.view pid).setFd fd (some f)))
  | closeOther {w pid fd} : (∀ p r, w.rings pid p = some r → r.fd ≠ fd) →
      Step hugeSize w none (w.put pid ((w.view pid).setFd fd none))
  | use {w pid p a n image} : Step hugeSize w none (w.put pid ((w.view pid).write p a n image))

/-- The header of a ring names the descriptor that was opened for it. -/
def World.Names (w : World Path Pid) (x : Pid × Addr × Handle) : Prop :=
  (w.view x.1).names x.2.1 x.2.2.kind x.2.2.fd

/-- The worlds that are reached when processes start without rings, and delete a ring only when
its header names the descriptor that was opened for it. -/
inductive Reach (hugeSize : SizeT → SizeT) : World Path Pid → Prop
  | start {files proc} : Reach hugeSize ⟨files, proc, fun _ _ => none⟩
  | step {w x w'} : Reach hugeSize w → Step hugeSize w x w' → (∀ y ∈ x, w.Names y) →
      Reach hugeSize w'

/-- The descriptor that was opened for the deleted ring is closed, and no other. -/
def Closes (w : World Path Pid) (x : Pid × Addr × Handle) (w' : World Path Pid) : Prop :=
  (w.proc x.1).fds x.2.2.fd ≠ none ∧
    (w'.proc x.1).fds = Function.update (w.proc x.1).fds x.2.2.fd none ∧
    ∀ pid, pid ≠ x.1 → (w'.proc pid).fds = (w.proc pid).fds

/-- Every ring is mapped, its descriptor is open, and no two rings of a process share one. -/
structure Held (w : World Path Pid) : Prop where
  mapped : ∀ pid p r, w.rings pid p = some r → ((w.proc pid).maps p).isSome
  isOpen : ∀ pid p r, w.rings pid p = some r → ((w.proc pid).fds r.fd).isSome
  distinct : ∀ pid p p' r r', w.rings pid p = some r → w.rings pid p' = some r' → p ≠ p' →
    r.fd ≠ r'.fd

/-! ## Constructors keep what is held -/

section Get

omit [DecidableEq Pid]
variable {hugeSize : SizeT → SizeT} {a : Args Path} {c : Ctor} {r : Option Addr} {s' : Os Path}

/-- A constructor of a shared ring fails at once, or goes through `get_buf_shm` and then touches
only bytes. -/
theorem GetExit.shm (h : GetExit hugeSize env a s c r s') (huse : useMalloc a.prot = false) :
    (r = none ∧ ∃ e, s' = s.fail e) ∨
      ∃ m s₀, ShmExit hugeSize env (c.totalSize a.objNum a.objSize) a.flag a.shmPath s
        (needNew a.prot) m s₀ ∧ Kept s₀ s' ∧ ∀ p, r = some p → ∃ fd, m = some (p, fd) := by
  have hmem : ∀ {m s₀}, MemExit hugeSize env (c.totalSize a.objNum a.objSize) a.prot a.flag
      a.shmPath s m s₀ → (m = none ∧ ∃ e, s₀ = s.fail e) ∨ ShmExit hugeSize env
        (c.totalSize a.objNum a.objSize) a.flag a.shmPath s (needNew a.prot) m s₀ := by
    intro m s₀ hm
    cases hm with
    | noMapping => exact .inl ⟨rfl, _, rfl⟩
    | mallocFail _ h _ => cases huse.symm.trans h
    | malloc _ h _ => cases huse.symm.trans h
    | shm _ _ hm => exact .inr hm
  cases h with
  | capacity => exact .inl ⟨rfl, _, rfl⟩
  | slotNa => exact .inl ⟨rfl, _, rfl⟩
  | noMemory _ _ hm =>
    rcases hmem hm with ⟨-, hf⟩ | hm
    · exact .inl ⟨rfl, hf⟩
    · exact .inr ⟨_, _, hm, .refl _, fun p hp => nomatch hp⟩
  | attached _ _ hm _ =>
    rcases hmem hm with ⟨hn, -⟩ | hm
    · cases hn
    · exact .inr ⟨_, _, hm, .refl _, fun p hp => ⟨_, by rw [Option.some.inj hp]⟩⟩
  | syncFail _ _ hm _ _ =>
    rcases hmem hm with ⟨hn, -⟩ | hm
    · cases hn
    · exact .inr ⟨_, _, hm, Os.kept_syncFailed .., fun p hp => nomatch hp⟩
  | created _ _ hm _ _ =>
    rcases hmem hm with ⟨hn, -⟩ | hm
    · cases hn
    · refine .inr ⟨_, _, hm, Kept.trans ?_ (Os.kept_stores ..),
        fun p hp => ⟨_, by rw [Option.some.inj hp]⟩⟩
      cases c with
      | ring => exact .refl _
      | block => exact Os.kept_synced ..

theorem GetExit.keeps (h : GetExit hugeSize env a s c r s') (huse : useMalloc a.prot = false) :
    (∀ fd, (s.proc.fds fd).isSome → (s'.proc.fds fd).isSome) ∧
      ∀ q, (s.proc.maps q).isSome → (s'.proc.maps q).isSome := by
  obtain ⟨-, e, rfl⟩ | ⟨m, s₀, hm, hk, -⟩ := h.shm huse
  · exact ⟨fun _ => id, fun _ => id⟩
  · refine ⟨fun fd hfd => ?_, fun q hq => ?_⟩
    · rw [hk.fds]
      obtain he | ⟨fd', -, he⟩ := hm.fds
      · rw [he]
        exact hfd
      · rw [he]
        by_cases hx : fd = fd'
        · rw [hx, Function.update_self]
          rfl
        · rw [Function.update_of_ne hx]
          exact hfd
    · rw [hk.maps]
      exact hm.maps hq

/-- A new ring lies in a new mapping, and its descriptor is a new one. -/
theorem GetExit.got (h : GetExit hugeSize env a s c (some p) s')
    (huse : useMalloc a.prot = false) {fd : CInt} (hfd : s.proc.newFd env.fd = .ok fd) :
    s.proc.maps p = none ∧ (s'.proc.maps p).isSome ∧ s.proc.fds fd = none ∧
      (s'.proc.fds fd).isSome := by
  obtain ⟨hn, -⟩ | ⟨m, s₀, hm, hk, hp⟩ := h.shm huse
  · cases hn
  · obtain ⟨fd', rfl⟩ := hp p rfl
    rw [hk.maps, hk.fds]
    cases hm with
    | mapped hfd' _ hmap =>
      obtain rfl : fd = fd' := Except.ok.inj (hfd.symm.trans hfd')
      refine ⟨(Proc.newAddr_ok (Proc.newMap_ok hmap).2).2, by simp [Os.setMap],
        (Proc.newFd_ok hfd).2, ?_⟩
      show ((Os.sized _ _ _ _).proc.fds fd).isSome
      rw [Os.sized_proc, Os.opened_fds, Function.update_self]
      rfl

end Get

/-! ## Every run -/

section Run

variable {hugeSize : SizeT → SizeT} {w w' : World Path Pid} {pid pid' : Pid}
  {x : Option (Pid × Addr × Handle)}

omit [DecidableEq Path] in
theorem put_proc (w : World Path Pid) (pid : Pid) (s : Os Path) :
    (w.put pid s).proc pid = s.proc := Function.update_self ..

omit [DecidableEq Path] in
theorem put_proc_of_ne (w : World Path Pid) (s : Os Path) (h : pid' ≠ pid) :
    (w.put pid s).proc pid' = w.proc pid' := Function.update_of_ne h ..

omit [DecidableEq Path] in
theorem Held.put (h : Held w) {s : Os Path}
    (hfds : ∀ p r, w.rings pid p = some r → (s.proc.fds r.fd).isSome)
    (hmaps : ∀ p r, w.rings pid p = some r → (s.proc.maps p).isSome) : Held (w.put pid s) := by
  refine ⟨fun pid' p r hr => ?_, fun pid' p r hr => ?_, h.distinct⟩
  · by_cases hp : pid' = pid
    · subst hp
      rw [put_proc]
      exact hmaps p r hr
    · rw [put_proc_of_ne w s hp]
      exact h.mapped pid' p r hr
  · by_cases hp : pid' = pid
    · subst hp
      rw [put_proc]
      exact hfds p r hr
    · rw [put_proc_of_ne w s hp]
      exact h.isOpen pid' p r hr

omit [DecidableEq Path] in
theorem Held.drop {p : Addr} (hm : ∀ pid' p' r, (pid' ≠ pid ∨ p' ≠ p) → w.rings pid' p' = some r →
      ((w.proc pid').maps p').isSome ∧ ((w.proc pid').fds r.fd).isSome)
    (hd : ∀ pid p p' r r', w.rings pid p = some r → w.rings pid p' = some r' → p ≠ p' →
      r.fd ≠ r'.fd) : Held (w.setRing pid p none) := by
  have hother : ∀ pid' p' r, (w.setRing pid p none).rings pid' p' = some r →
      (pid' ≠ pid ∨ p' ≠ p) ∧ w.rings pid' p' = some r := by
    intro pid' p' r hr
    change Function.update w.rings pid (Function.update (w.rings pid) p none) pid' p' = _ at hr
    by_cases hp : pid' = pid
    · subst hp
      rw [Function.update_self] at hr
      by_cases hq : p' = p
      · rw [hq, Function.update_self] at hr
        cases hr
      · rw [Function.update_of_ne hq] at hr
        exact ⟨.inr hq, hr⟩
    · rw [Function.update_of_ne hp] at hr
      exact ⟨.inl hp, hr⟩
  refine ⟨fun pid' p' r hr => ?_, fun pid' p' r hr => ?_, fun pid' p' p'' r r' hr hr' hne => ?_⟩
  · exact (hm pid' p' r (hother _ _ _ hr).1 (hother _ _ _ hr).2).1
  · exact (hm pid' p' r (hother _ _ _ hr).1 (hother _ _ _ hr).2).2
  · exact hd pid' p' p'' r r' (hother _ _ _ hr).2 (hother _ _ _ hr').2 hne

omit [DecidableEq Path] in
theorem Held.add (h : Held w) {p : Addr} {r : Handle} (hm : ((w.proc pid).maps p).isSome)
    (hf : ((w.proc pid).fds r.fd).isSome)
    (hd : ∀ p' r', w.rings pid p' = some r' → r'.fd ≠ r.fd) :
    Held (w.setRing pid p (some r)) := by
  have hcases : ∀ pid' p' r', (w.setRing pid p (some r)).rings pid' p' = some r' →
      (pid' = pid ∧ p' = p ∧ r' = r) ∨ ((pid' = pid → p' ≠ p) ∧ w.rings pid' p' = some r') := by
    intro pid' p' r' hr
    change Function.update w.rings pid (Function.update (w.rings pid) p (some r)) pid' p' = _ at hr
    by_cases hp : pid' = pid
    · subst hp
      rw [Function.update_self] at hr
      by_cases hq : p' = p
      · rw [hq, Function.update_self] at hr
        exact .inl ⟨rfl, hq, (Option.some.inj hr).symm⟩
      · rw [Function.update_of_ne hq] at hr
        exact .inr ⟨fun _ => hq, hr⟩
    · rw [Function.update_of_ne hp] at hr
      exact .inr ⟨fun h => absurd h hp, hr⟩
  refine ⟨fun pid' p' r' hr => ?_, fun pid' p' r' hr => ?_, fun pid' p' p'' r' r'' hr hr' hne => ?_⟩
  · obtain ⟨rfl, rfl, rfl⟩ | ⟨-, hr⟩ := hcases _ _ _ hr
    · exact hm
    · exact h.mapped _ _ _ hr
  · obtain ⟨rfl, rfl, rfl⟩ | ⟨-, hr⟩ := hcases _ _ _ hr
    · exact hf
    · exact h.isOpen _ _ _ hr
  · obtain ⟨hp, hq, he⟩ | ⟨-, hold⟩ := hcases _ _ _ hr
    · obtain ⟨-, hq', -⟩ | ⟨-, hold'⟩ := hcases _ _ _ hr'
      · exact absurd (hq.trans hq'.symm) hne
      · rw [he]
        exact (hd _ _ (hp ▸ hold')).symm
    · obtain ⟨hp, -, he⟩ | ⟨-, hold'⟩ := hcases _ _ _ hr'
      · rw [he]
        exact hd _ _ (hp ▸ hold)
      · exact h.distinct _ _ _ _ _ hold hold' hne

/-- Deleting a ring whose header names its descriptor closes that descriptor only; deleting
another ring leaves it open. -/
theorem Step.closes_iff {y : Pid × Addr × Handle} (h : Held w) (hs : Step hugeSize w (some y) w') :
    Closes w y w' ↔ w.Names y := by
  generalize hx : some y = x at hs
  cases hs with
  | @del pid env p r s' hr hrun =>
    obtain rfl := Option.some.inj hx
    have hopen := h.isOpen pid p r hr
    have hdel := run_delRingBuf env p (w.view pid) r.kind
    rw [hrun] at hdel
    have hfds : (((w.put pid s').setRing pid p none).proc pid).fds = s'.proc.fds :=
      congrArg Proc.fds (put_proc w pid s')
    have hothers : ∀ pid', pid' ≠ pid →
        (((w.put pid s').setRing pid p none).proc pid').fds = (w.proc pid').fds :=
      fun pid' hp => congrArg Proc.fds (put_proc_of_ne w s' hp)
    constructor
    · intro ⟨_, hclosed, _⟩
      rw [hfds] at hclosed
      have hnone : s'.proc.fds r.fd = none := by rw [hclosed, Function.update_self]
      by_cases hm : (w.view pid).int p (r.kind.offset .mapType) = mapShm
      · rw [if_pos hm] at hdel
        refine ⟨hm, ?_⟩
        -- The descriptor that is closed is the one in the header.
        by_contra hne
        have hkeep : s'.proc.fds r.fd = (w.proc pid).fds r.fd := by
          rw [hdel.1, Function.update_of_ne (Ne.symm hne)]
          rfl
        rw [hkeep] at hnone
        rw [hnone] at hopen
        cases hopen
      · rw [if_neg hm] at hdel
        have hkeep : s'.proc.fds r.fd = (w.proc pid).fds r.fd := congrFun hdel r.fd
        rw [hkeep] at hnone
        rw [hnone] at hopen
        cases hopen
    · intro ⟨hm, hfd⟩
      rw [if_pos hm, show (w.view pid).int p (r.kind.offset .fd) = r.fd from hfd] at hdel
      refine ⟨?_, hfds.trans hdel.1, hothers⟩
      intro hnone
      change (w.proc pid).fds r.fd = none at hnone
      rw [hnone] at hopen
      cases hopen
  | _ => cases hx

/-- What a step preserves. -/
theorem Held.step (h : Held w) (hs : Step hugeSize w x w') (hn : ∀ y ∈ x, w.Names y) :
    Held w' := by
  cases hs with
  | @getFail pid env a k s' hshm hmal _ hrun =>
    have hexit := run_construct hugeSize env a (w.view pid) k.ctor
    rw [← getRingBuf_eq, hrun] at hexit
    have hkeep := GetExit.keeps hexit (shm_prot hshm hmal).2.1
    exact h.put (fun p r hr => hkeep.1 _ (h.isOpen pid p r hr))
      fun p r hr => hkeep.2 _ (h.mapped pid p r hr)
  | @get pid env a k p fd s' hshm hmal _ hfd hrun =>
    have hexit := run_construct hugeSize env a (w.view pid) k.ctor
    rw [← getRingBuf_eq, hrun] at hexit
    have huse := (shm_prot hshm hmal).2.1
    have hkeep := GetExit.keeps hexit huse
    obtain ⟨_, hmaps, hfree, hopen⟩ := GetExit.got hexit huse hfd
    refine (h.put (fun p r hr => hkeep.1 _ (h.isOpen pid p r hr))
      fun p r hr => hkeep.2 _ (h.mapped pid p r hr)).add ?_ ?_ ?_
    · rw [put_proc]
      exact hmaps
    · rw [put_proc]
      exact hopen
    · intro p' r' hr' he
      have := h.isOpen pid p' r' hr'
      rw [he, show (w.proc pid).fds fd = none from hfree] at this
      cases this
  | @del pid env p r s' hr hrun =>
    obtain ⟨hm, hfd⟩ := hn _ rfl
    have hdel := run_delRingBuf env p (w.view pid) r.kind
    rw [hrun, if_pos hm, show (w.view pid).int p (r.kind.offset .fd) = r.fd from hfd] at hdel
    refine Held.drop (w := w.put pid s') (fun pid' p' r' hne hr' => ?_) h.distinct
    change w.rings pid' p' = some r' at hr'
    by_cases hp : pid' = pid
    · subst hp
      have hq : p' ≠ p := hne.resolve_left fun h => h rfl
      rw [put_proc]
      refine ⟨?_, ?_⟩
      · exact (hdel.2 p' hq).trans (h.mapped _ _ _ hr')
      · refine (congrArg Option.isSome (congrFun hdel.1 r'.fd)).trans ?_
        rw [Function.update_of_ne (h.distinct _ _ _ _ _ hr' hr hq)]
        exact h.isOpen _ _ _ hr'
    · rw [put_proc_of_ne w s' hp]
      exact ⟨h.mapped _ _ _ hr', h.isOpen _ _ _ hr'⟩
  | @openOther pid fd f hfree =>
    refine h.put (fun p r hr => ?_) fun p r hr => h.mapped pid p r hr
    show (Function.update (w.proc pid).fds fd (some f) r.fd).isSome
    by_cases hx : r.fd = fd
    · rw [hx, Function.update_self]
      rfl
    · rw [Function.update_of_ne hx]
      exact h.isOpen pid p r hr
  | @closeOther pid fd hne =>
    refine h.put (fun p r hr => ?_) fun p r hr => h.mapped pid p r hr
    show (Function.update (w.proc pid).fds fd none r.fd).isSome
    rw [Function.update_of_ne (hne p r hr)]
    exact h.isOpen pid p r hr
  | @use pid p a n image =>
    have hk := kept_write (w.view pid) p a n image
    refine h.put (fun p r hr => ?_) fun p r hr => ?_
    · rw [hk.fds]
      exact h.isOpen pid p r hr
    · rw [hk.maps]
      exact h.mapped pid p r hr

theorem Reach.held (h : Reach hugeSize w) : Held w := by
  induction h with
  | start => exact ⟨fun _ _ _ hr => (nomatch hr), fun _ _ _ hr => (nomatch hr),
      fun _ _ _ _ _ hr => (nomatch hr)⟩
  | step _ hs hn ih => exact ih.step hs hn

end Run

/-- In every run in which processes have deleted a ring only when its header named the descriptor
that their constructor had opened for it: a deletion closes that descriptor and no other just
when the header still names it. -/
theorem del_closes_iff {hugeSize : SizeT → SizeT} {w w' : World Path Pid}
    {y : Pid × Addr × Handle} (h : Reach hugeSize w) (hs : Step hugeSize w (some y) w') :
    Closes w y w' ↔ w.Names y :=
  Step.closes_iff h.held hs

/-! ## Two processes -/

/-- Creating a ring in the shared file, and attaching to it. -/
def creating : Args Unit := ⟨2, 64, some (), mapShm, 0⟩
def attaching : Args Unit := ⟨2, 64, some (), mapShm ||| mapExists, 0⟩

/-- A process that holds nothing, and one that has a file of its own open as descriptor 3. -/
def oneBusy : World Unit Bool where
  files := ⟨fun _ => none, fun _ => .empty, 1⟩
  proc
    | true => (Os.boot : Os Unit).proc
    | false => ((Os.boot : Os Unit).setFd 3 (some 0)).proc
  rings _ _ := none

/-- The first process has created a ring, with descriptor 3. -/
def oneCreated : World Unit Bool :=
  (oneBusy.put true ((getRingBuf id creating .spsc).run (exec .smooth)
    (oneBusy.view true)).2).setRing true 1 (some ⟨.spsc, 3⟩)

/-- Nothing fails, and descriptor 4 is handed out. -/
def fourth : Env := { Env.smooth with fd := .ok 4 }

/-- The second process has attached to it, with descriptor 4. -/
def oneAttached : World Unit Bool :=
  (oneCreated.put false ((getRingBuf id attaching .spsc).run (exec fourth)
    (oneCreated.view false)).2).setRing false 1 (some ⟨.spsc, 4⟩)

/-- A process of the two deletes its ring. -/
def deleted (w : World Unit Bool) (pid : Bool) : World Unit Bool :=
  (w.put pid ((delRingBuf (some 1) .spsc).run (exec .smooth) (w.view pid)).2).setRing pid 1 none

theorem oneCreated_reach : Reach id oneCreated := by
  have hfd : (oneBusy.proc true).newFd Env.smooth.fd = .ok 3 := rfl
  have hrun : (getRingBuf id creating .spsc).run (exec .smooth) (oneBusy.view true) =
      (some 1, ((getRingBuf id creating .spsc).run (exec .smooth) (oneBusy.view true)).2) := rfl
  have hget : Step id oneBusy none oneCreated := .get rfl rfl rfl hfd hrun
  exact .step .start hget fun y hy => nomatch hy

theorem oneAttached_reach : Reach id oneAttached := by
  have hfd : (oneCreated.proc false).newFd fourth.fd = .ok 4 := rfl
  have hrun : (getRingBuf id attaching .spsc).run (exec fourth) (oneCreated.view false) =
      (some 1, ((getRingBuf id attaching .spsc).run (exec fourth) (oneCreated.view false)).2) := rfl
  have hget : Step id oneCreated none oneAttached := .get rfl rfl rfl hfd hrun
  exact .step oneCreated_reach hget fun y hy => nomatch hy

theorem deleted_step {pid : Bool} {fd : CInt} (h : oneAttached.rings pid 1 = some ⟨.spsc, fd⟩) :
    Step id oneAttached (some (pid, 1, ⟨.spsc, fd⟩)) (deleted oneAttached pid) := by
  have hrun : (delRingBuf (some 1) .spsc).run (exec .smooth) (oneAttached.view pid) =
      ((), ((delRingBuf (some 1) .spsc).run (exec .smooth) (oneAttached.view pid)).2) := rfl
  exact .del h hrun

/-- The creator deletes its ring. -/
theorem del_closes_iff_creator :
    Closes oneAttached (true, 1, ⟨.spsc, 3⟩) (deleted oneAttached true) ↔
      oneAttached.Names (true, 1, ⟨.spsc, 3⟩) :=
  del_closes_iff oneAttached_reach (deleted_step rfl)

/-- The second process deletes its ring: the file of its own is closed, and the descriptor of
the ring stays open. -/
theorem del_closes_other :
    Reach id oneAttached ∧
    Step id oneAttached (some (false, 1, ⟨.spsc, 4⟩)) (deleted oneAttached false) ∧
    (oneAttached.proc false).fds 3 = some 0 ∧
    ((deleted oneAttached false).proc false).fds 3 = none ∧
    ((deleted oneAttached false).proc false).fds 4 = some 1 ∧
    ¬Closes oneAttached (false, 1, ⟨.spsc, 4⟩) (deleted oneAttached false) := by
  have hopen : ((deleted oneAttached false).proc false).fds 4 = some 1 := by rfl
  refine ⟨oneAttached_reach, deleted_step rfl, by rfl, by rfl, hopen, ?_⟩
  intro ⟨_, hclosed, _⟩
  have : ((deleted oneAttached false).proc false).fds 4 = none := by
    rw [hclosed, Function.update_self]
  cases hopen.symm.trans this

end Setup

end RingBuf
