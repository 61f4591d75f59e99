import RingBuf.Setup.Code

/-!
# The exits of the constructors

Every way out of the code that obtains the memory of a ring, with what it answers and what it
leaves behind (`Memory`), and every way out of the two constructors (`Created`).
-/

namespace RingBuf

open Conc Word Bytes

namespace Setup

variable {Path : Type}

/-! ## What the system hands out -/

theorem Proc.newFd_ok {q : Proc} {x : Except Errno CInt} {fd : CInt} (h : q.newFd x = .ok fd) :
    fd.slt 0 = false ∧ q.fds fd = none := by
  cases x with
  | error e => cases h
  | ok fd' =>
    change (if fd'.slt 0 || (q.fds fd').isSome then throw emfile else pure fd') = _ at h
    split_ifs at h with hc
    obtain rfl : fd' = fd := Except.ok.inj h
    simpa using hc

theorem Proc.newAddr_ok {q : Proc} {x : Except Errno Addr} {p : Addr} (h : q.newAddr x = .ok p) :
    q.heap p = none ∧ q.maps p = none := by
  cases x with
  | error e => cases h
  | ok p' =>
    change (if (q.heap p').isSome || (q.maps p').isSome then throw enomem else pure p') = _ at h
    split_ifs at h with hc
    obtain rfl : p' = p := Except.ok.inj h
    simpa using hc

theorem Proc.newMap_ok {q : Proc} {x : Except Errno Addr} {len : SizeT} {p : Addr}
    (h : q.newMap x len = .ok p) : len ≠ 0 ∧ q.newAddr x = .ok p := by
  unfold Proc.newMap at h
  split_ifs at h with hc
  exact ⟨hc, h⟩

namespace Os

variable [DecidableEq Path]

/-- The file that opening `path` (or an anonymous file) gives access to. -/
def target (s : Os Path) (path : Option Path) : FileId :=
  (path.bind s.files.named).getD s.files.fresh

/-- The files once `path` (or an anonymous file) has been opened. -/
def provide (s : Os Path) (path : Option Path) : Os Path :=
  match path with
  | none => s.create
  | some path => if (s.files.named path).isSome then s else s.create.link path s.files.fresh

/-- The size of the file that opening `path` (or an anonymous file) gives access to. -/
def foundSize (s : Os Path) (path : Option Path) : SizeT :=
  ((s.provide path).files.file (s.target path)).size

/-- The state once `path` (or an anonymous file) has been opened as `fd`. -/
def opened (s : Os Path) (path : Option Path) (fd : CInt) : Os Path :=
  (s.provide path).setFd fd (some (s.target path))

@[simp] theorem provide_proc (s : Os Path) (path : Option Path) :
    (s.provide path).proc = s.proc := by
  unfold provide
  split
  · rfl
  · split <;> rfl

@[simp] theorem opened_errno (s : Os Path) (path : Option Path) (fd : CInt) :
    (s.opened path fd).proc.errno = s.proc.errno := by
  show (s.provide path).proc.errno = _
  rw [provide_proc]

@[simp] theorem opened_heap (s : Os Path) (path : Option Path) (fd : CInt) :
    (s.opened path fd).proc.heap = s.proc.heap := by
  show (s.provide path).proc.heap = _
  rw [provide_proc]

@[simp] theorem opened_maps (s : Os Path) (path : Option Path) (fd : CInt) :
    (s.opened path fd).proc.maps = s.proc.maps := by
  show (s.provide path).proc.maps = _
  rw [provide_proc]

@[simp] theorem opened_fds (s : Os Path) (path : Option Path) (fd : CInt) :
    (s.opened path fd).proc.fds = Function.update s.proc.fds fd (some (s.target path)) := by
  show Function.update (s.provide path).proc.fds fd _ = _
  rw [provide_proc]

@[simp] theorem opened_files (s : Os Path) (path : Option Path) (fd : CInt) :
    (s.opened path fd).files = (s.provide path).files := rfl

omit [DecidableEq Path]

/-- The state once the file of a new ring has its size. -/
def sized (s : Os Path) (f : FileId) (len : SizeT) (needNew : Bool) : Os Path :=
  if needNew then s.setFile f ((s.files.file f).resize len) else s

@[simp] theorem sized_proc (s : Os Path) (f : FileId) (len : SizeT) (needNew : Bool) :
    (s.sized f len needNew).proc = s.proc := by
  unfold sized
  split <;> rfl

@[simp] theorem sized_named (s : Os Path) (f : FileId) (len : SizeT) (needNew : Bool) :
    (s.sized f len needNew).files.named = s.files.named := by
  unfold sized
  split <;> rfl

/-- The file of a new ring once it has its size. -/
theorem file_sized (s : Os Path) (f : FileId) (len : SizeT) :
    (s.sized f len true).files.file f = (s.files.file f).resize len :=
  Function.update_self ..

end Os

section Names

variable [DecidableEq Path] {s : Os Path}

/-- Opening files that exist names no other. -/
theorem provide_named {path : Option Path} (h : ∀ x, path = some x → s.files.named x ≠ none) :
    (s.provide path).files.named = s.files.named := by
  cases path with
  | none => rfl
  | some x =>
    have hx : (s.files.named x).isSome := Option.isSome_iff_ne_none.2 (h x rfl)
    simp [Os.provide, hx]

theorem provide_named_of_none {x : Path} (h : s.files.named x = none) :
    (s.provide (some x)).files.named x = some s.files.fresh := by
  simp [Os.provide, h, Os.link, Os.create]

/-- A file that opening has created is empty. -/
theorem provide_fresh_of_none {x : Path} (h : s.files.named x = none) :
    (s.provide (some x)).files.file s.files.fresh = .empty := by
  simp [Os.provide, h, Os.link, Os.create]

omit [DecidableEq Path] in
theorem target_of_none {x : Path} (h : s.files.named x = none) :
    s.target (some x) = s.files.fresh := by
  simp [Os.target, h]

/-- A file that is not there is found empty. -/
theorem foundSize_of_none {x : Path} (h : s.files.named x = none) :
    s.foundSize (some x) = 0 := by
  simp [Os.foundSize, Os.provide, Os.target, h, Os.link, Os.create, File.empty]

/-- Opening a path that exists changes no file. -/
theorem provide_of_named {x : Path} {f : FileId} (h : s.files.named x = some f) :
    s.provide (some x) = s := by
  simp [Os.provide, h]

omit [DecidableEq Path] in
theorem target_of_named {x : Path} {f : FileId} (h : s.files.named x = some f) :
    s.target (some x) = f := by
  simp [Os.target, h]

end Names

/-! ## `get_buf_shm` -/

section Exits

variable [DecidableEq Path] (hugeSize : SizeT → SizeT) (env : Env) (totalSz : SizeT)
  (prot flag : CInt) (shmPath : Option Path) (s : Os Path)

/-- The length of the mapping. -/
def mapLen : SizeT := if has mapHugetlb flag then hugeSize totalSz else totalSz

/-- The flags of the mapping. -/
def mapFlag : CInt :=
  if !has flag mapShared && !has flag mapPrivate then flag ||| mapShared else flag

/-- The file of a ring is ready to be mapped: a new one has been sized, an existing one has the
right size. -/
def FileOk (new : Bool) : Prop :=
  if new then env.truncTo (mapLen hugeSize totalSz flag) = .ok ()
  else shmPath.isSome ∧ env.fstat = .ok () ∧ s.foundSize shmPath ≠ 0 ∧
    s.foundSize shmPath = mapLen hugeSize totalSz flag

/-- The exits of `get_buf_shm`. -/
inductive ShmExit (new : Bool) : Option (Addr × CInt) → Os Path → Prop
  | noPath : new = false → shmPath = none → ShmExit new none (s.fail ringbufInvalidParam)
  | openFail {e} : (new = false → shmPath.isSome) → s.proc.newFd env.fd = .error e →
      ShmExit new none (s.fail e)
  | truncFail {fd e} : s.proc.newFd env.fd = .ok fd → new = true →
      env.truncTo (mapLen hugeSize totalSz flag) = .error e →
      ShmExit new none ((s.opened shmPath fd).fail e)
  | fstatFail {fd e} : s.proc.newFd env.fd = .ok fd → new = false → shmPath.isSome →
      env.fstat = .error e → ShmExit new none ((s.opened shmPath fd).fail e)
  | notExists {fd} : s.proc.newFd env.fd = .ok fd → new = false → shmPath.isSome →
      env.fstat = .ok () → s.foundSize shmPath = 0 →
      ShmExit new none ((s.opened shmPath fd).fail ringbufMappingNotExists)
  | sizeError {fd} : s.proc.newFd env.fd = .ok fd → new = false → shmPath.isSome →
      env.fstat = .ok () → s.foundSize shmPath ≠ 0 →
      s.foundSize shmPath ≠ mapLen hugeSize totalSz flag →
      ShmExit new none ((s.opened shmPath fd).fail ringbufMappingSizeError)
  | mmapFail {fd e} : s.proc.newFd env.fd = .ok fd →
      FileOk hugeSize env totalSz flag shmPath s new →
      s.proc.newMap env.mmap (mapLen hugeSize totalSz flag) = .error e →
      ShmExit new none ((((s.opened shmPath fd).sized (s.target shmPath)
        (mapLen hugeSize totalSz flag) new).fail e).setFd fd none)
  | mapped {fd p} : s.proc.newFd env.fd = .ok fd →
      FileOk hugeSize env totalSz flag shmPath s new →
      s.proc.newMap env.mmap (mapLen hugeSize totalSz flag) = .ok p →
      ShmExit new (some (p, fd)) (((s.opened shmPath fd).sized (s.target shmPath)
        (mapLen hugeSize totalSz flag) new).setMap p
          (some (backing (mapFlag flag) (s.target shmPath))))

variable {hugeSize env totalSz prot flag shmPath s}

/-- Opening the file. -/
theorem run_openShm : (openShm shmPath).run (exec env) s =
    match s.proc.newFd env.fd with
    | .ok fd => (fd, s.opened shmPath fd)
    | .error e => (-1, s.fail e) := by
  cases shmPath with
  | none =>
    show exec env .memfdCreate s = _
    simp only [exec]
    cases s.proc.newFd env.fd <;> rfl
  | some path =>
    show exec env (.openFile path) s = _
    simp only [exec]
    cases s.proc.newFd env.fd with
    | error e => rfl
    | ok fd =>
      cases h : s.files.named path with
      | none => simp [Os.opened, Os.provide, Os.target, h]
      | some f => simp [Os.opened, Os.provide, Os.target, h]

/-- Mapping an open file. -/
theorem run_mapShmFile {fd : CInt} {f : FileId} (len : SizeT) (hf : s.proc.fds fd = some f) :
    (mapShmFile len fd flag).run (exec env) s =
    match s.proc.newMap env.mmap len with
    | .ok p => (some (p, fd), s.setMap p (some (backing (mapFlag flag) f)))
    | .error e => (none, (s.fail e).setFd fd none) := by
  have hclose : ∀ e, (exec env (.close fd) (s.fail e)).2 = (s.fail e).setFd fd none := by
    intro e
    show (if ((s.fail e).proc.fds fd).isSome then _ else _) = _
    rw [if_pos]
    show (s.proc.fds fd).isSome
    rw [hf]
    rfl
  simp only [mapShmFile, Prog.op_bind, Prog.ret_bind, Prog.run_op]
  cases h : s.proc.newMap env.mmap len with
  | ok p => simp only [exec, h, hf]; rfl
  | error e =>
    have hm : exec env (.mmap len (mapFlag flag) fd) s = (none, s.fail e) := by
      simp only [exec, h]
    have hm' := hm
    unfold mapFlag at hm'
    rw [hm']
    show (none, (exec env (.close fd) (s.fail e)).2) = _
    rw [hclose]

/-- The last step of `get_buf_shm`, which maps the file or fails. -/
theorem run_mapShmFile_exit {new : Bool} {fd : CInt} (hfd : s.proc.newFd env.fd = .ok fd)
    (hf : FileOk hugeSize env totalSz flag shmPath s new) :
    ShmExit hugeSize env totalSz flag shmPath s new
      ((mapShmFile (mapLen hugeSize totalSz flag) fd flag).run (exec env)
        ((s.opened shmPath fd).sized (s.target shmPath) (mapLen hugeSize totalSz flag) new)).1
      ((mapShmFile (mapLen hugeSize totalSz flag) fd flag).run (exec env)
        ((s.opened shmPath fd).sized (s.target shmPath) (mapLen hugeSize totalSz flag) new)).2 := by
  rw [run_mapShmFile (f := s.target shmPath) _ (by simp)]
  have hnew : ((s.opened shmPath fd).sized (s.target shmPath) (mapLen hugeSize totalSz flag)
      new).proc.newMap env.mmap (mapLen hugeSize totalSz flag) =
      s.proc.newMap env.mmap (mapLen hugeSize totalSz flag) := by
    simp [Proc.newMap, Proc.newAddr]
  rw [hnew]
  cases hm : s.proc.newMap env.mmap (mapLen hugeSize totalSz flag) with
  | ok p => exact .mapped hfd hf hm
  | error e => exact .mmapFail hfd hf hm

theorem run_getBufShm (new : Bool) (hprot : new = false → has prot mapExists = true) :
    ShmExit hugeSize env totalSz flag shmPath s new
      ((getBufShm hugeSize totalSz prot flag shmPath new).run (exec env) s).1
      ((getBufShm hugeSize totalSz prot flag shmPath new).run (exec env) s).2 := by
  unfold getBufShm
  split
  case isTrue h =>
    simp only [Bool.and_eq_true, Bool.not_eq_true', Option.isNone_iff_eq_none] at h
    exact .noPath h.1 h.2
  case isFalse h =>
    simp only [Bool.and_eq_true, Bool.not_eq_true', Option.isNone_iff_eq_none, not_and] at h
    have hpath : new = false → shmPath.isSome := fun hn => Option.isSome_iff_ne_none.2 (h hn)
    rw [Prog.run_bind, run_openShm]
    cases hfd : s.proc.newFd env.fd with
    | error e => exact .openFail hpath hfd
    | ok fd =>
      have hslt := (Proc.newFd_ok hfd).1
      have hopen : (s.opened shmPath fd).proc.fds fd = some (s.target shmPath) := by simp
      simp only [hslt, Bool.false_eq_true, if_false]
      cases new with
      | true =>
        simp only [if_true, Prog.op_bind, Prog.ret_bind, Prog.run_op, exec, hopen]
        cases ht : env.truncTo (mapLen hugeSize totalSz flag) with
        | error e =>
          have ht' := ht
          unfold mapLen at ht'
          simp only [ht']
          exact .truncFail hfd rfl ht
        | ok x =>
          have ht' := ht
          unfold mapLen at ht'
          simp only [ht']
          exact run_mapShmFile_exit hfd ht
      | false =>
        simp only [hprot rfl, if_true, Bool.false_eq_true, if_false, Prog.op_bind, Prog.ret_bind,
          Prog.run_op, exec, hopen]
        cases hst : env.fstat with
        | error e => exact .fstatFail hfd rfl (hpath rfl) hst
        | ok x =>
          by_cases h₀ : ((s.opened shmPath fd).files.file (s.target shmPath)).size = 0
          · simp only [if_pos h₀]
            exact .notExists hfd rfl (hpath rfl) hst h₀
          · by_cases hne : ((s.opened shmPath fd).files.file (s.target shmPath)).size =
                mapLen hugeSize totalSz flag
            · have hne' := hne
              unfold mapLen at hne'
              simp only [if_neg h₀, if_neg (Classical.not_not.2 hne')]
              exact run_mapShmFile_exit hfd ⟨hpath rfl, hst, h₀, hne⟩
            · have hne' := hne
              unfold mapLen at hne'
              simp only [if_neg h₀, if_pos (show _ ≠ _ from hne')]
              exact .sizeError hfd rfl (hpath rfl) hst h₀ hne

/-- Closing a new descriptor leaves the descriptors as they were. -/
theorem closed_fds (path : Option Path) {fd : CInt} (h : s.proc.fds fd = none) :
    Function.update (s.opened path fd).proc.fds fd none = s.proc.fds := by
  rw [Os.opened_fds, Function.update_idem, ← h, Function.update_eq_self]

/-- `get_buf_shm` opens one descriptor at most. -/
theorem ShmExit.fds {new : Bool} {r : Option (Addr × CInt)} {s' : Os Path}
    (h : ShmExit hugeSize env totalSz flag shmPath s new r s') :
    s'.proc.fds = s.proc.fds ∨ ∃ fd, s.proc.newFd env.fd = .ok fd ∧
      s'.proc.fds = Function.update s.proc.fds fd (some (s.target shmPath)) := by
  cases h with
  | noPath => exact .inl rfl
  | openFail => exact .inl rfl
  | truncFail hfd => exact .inr ⟨_, hfd, s.opened_fds shmPath _⟩
  | fstatFail hfd => exact .inr ⟨_, hfd, s.opened_fds shmPath _⟩
  | notExists hfd => exact .inr ⟨_, hfd, s.opened_fds shmPath _⟩
  | sizeError hfd => exact .inr ⟨_, hfd, s.opened_fds shmPath _⟩
  | @mmapFail fd _ hfd =>
    refine .inl ?_
    show Function.update (Os.sized _ _ _ _).proc.fds fd none = _
    rw [Os.sized_proc, closed_fds _ (Proc.newFd_ok hfd).2]
  | @mapped fd _ hfd =>
    refine .inr ⟨fd, hfd, ?_⟩
    show (Os.sized _ _ _ _).proc.fds = _
    rw [Os.sized_proc, Os.opened_fds]

/-- `get_buf_shm` gives up no mapping. -/
theorem ShmExit.maps {new : Bool} {r : Option (Addr × CInt)} {s' : Os Path}
    (h : ShmExit hugeSize env totalSz flag shmPath s new r s') {q : Addr}
    (hq : (s.proc.maps q).isSome) : (s'.proc.maps q).isSome := by
  have hopened : ∀ fd, ((s.opened shmPath fd).proc.maps q).isSome := by
    intro fd
    rw [Os.opened_maps]
    exact hq
  have hsized : ∀ fd f len, (((s.opened shmPath fd).sized f len new).proc.maps q).isSome := by
    intro fd f len
    rw [Os.sized_proc]
    exact hopened fd
  cases h with
  | noPath => exact hq
  | openFail => exact hq
  | @truncFail fd => exact hopened fd
  | @fstatFail fd => exact hopened fd
  | @notExists fd => exact hopened fd
  | @sizeError fd => exact hopened fd
  | @mmapFail fd => exact hsized fd _ _
  | @mapped fd p =>
    show (Function.update (Os.sized _ _ _ _).proc.maps p _ q).isSome
    by_cases hqp : q = p
    · rw [hqp, Function.update_self]
      rfl
    · rw [Function.update_of_ne hqp]
      exact hsized fd _ _

/-! ## The memory of a ring -/

variable (hugeSize env totalSz prot flag shmPath s)

/-- The exits of the code that obtains the memory of a ring. -/
inductive MemExit : Option (Addr × CInt) → Os Path → Prop
  | noMapping : has prot (mapMalloc ||| mapShm) = false →
      MemExit none (s.fail ringbufNoMappingType)
  | mallocFail {e} : has prot (mapMalloc ||| mapShm) = true → useMalloc prot = true →
      s.proc.newAddr env.malloc = .error e → MemExit none (s.fail enomem)
  | malloc {p} : has prot (mapMalloc ||| mapShm) = true → useMalloc prot = true →
      s.proc.newAddr env.malloc = .ok p →
      MemExit (some (p, -9999)) (s.setHeap p (some env.junk))
  | shm {r s'} : has prot (mapMalloc ||| mapShm) = true → useMalloc prot = false →
      ShmExit hugeSize env totalSz flag shmPath s (needNew prot) r s' → MemExit r s'

theorem run_ringMemory : MemExit hugeSize env totalSz prot flag shmPath s
    ((ringMemory hugeSize totalSz shmPath prot flag).run (exec env) s).1
    ((ringMemory hugeSize totalSz shmPath prot flag).run (exec env) s).2 := by
  unfold ringMemory
  cases hmap : has prot (mapMalloc ||| mapShm) with
  | false => exact .noMapping hmap
  | true =>
    cases hm : useMalloc prot with
    | true =>
      simp only [Bool.not_true, Bool.false_eq_true, if_false, if_true, getBufMalloc,
        Prog.op_bind, Prog.ret_bind, Prog.run_op, exec]
      cases hp : s.proc.newAddr env.malloc with
      | error e => exact .mallocFail hmap hm hp
      | ok p => exact .malloc hmap hm hp
    | false =>
      simp only [Bool.not_true, Bool.false_eq_true, if_false]
      refine .shm hmap hm (run_getBufShm _ fun hn => ?_)
      simpa [needNew, hm] using hn

/-- The memory of a ring can be obtained. -/
def MemOk : Prop :=
  has prot (mapMalloc ||| mapShm) = true ∧
    if useMalloc prot then ∃ p, s.proc.newAddr env.malloc = .ok p
    else (∃ fd, s.proc.newFd env.fd = .ok fd) ∧
      FileOk hugeSize env totalSz flag shmPath s (needNew prot) ∧
      ∃ p, s.proc.newMap env.mmap (mapLen hugeSize totalSz flag) = .ok p

/-- A call of the system that is needed to obtain the memory of a ring fails. -/
def SystemFails : Prop :=
  has prot (mapMalloc ||| mapShm) = true ∧ (needNew prot = false → shmPath.isSome) ∧
    if useMalloc prot then ∃ e, s.proc.newAddr env.malloc = .error e
    else (∃ e, s.proc.newFd env.fd = .error e) ∨
      (if needNew prot then ∃ e, env.truncTo (mapLen hugeSize totalSz flag) = .error e
        else ∃ e, env.fstat = .error e) ∨
      FileOk hugeSize env totalSz flag shmPath s (needNew prot) ∧
        ∃ e, s.proc.newMap env.mmap (mapLen hugeSize totalSz flag) = .error e

variable {hugeSize env totalSz prot flag shmPath s} {r : Option (Addr × CInt)} {s' : Os Path}

theorem not_fileOk_of_trunc {e : Errno}
    (h : env.truncTo (mapLen hugeSize totalSz flag) = .error e) :
    ¬FileOk hugeSize env totalSz flag shmPath s true := by
  intro hf
  have hok : env.truncTo (mapLen hugeSize totalSz flag) = .ok () := hf
  rw [h] at hok
  cases hok

theorem FileOk.noError {new : Bool} (h : FileOk hugeSize env totalSz flag shmPath s new) :
    ¬if new then ∃ e, env.truncTo (mapLen hugeSize totalSz flag) = .error e
      else ∃ e, env.fstat = .error e := by
  cases new with
  | true =>
    intro ⟨e, he⟩
    exact not_fileOk_of_trunc he h
  | false =>
    intro ⟨e, he⟩
    rw [h.2.1] at he
    cases he

/-- Memory is obtained just when it can be, and then `errno` is left alone. -/
theorem MemExit.ok (h : MemExit hugeSize env totalSz prot flag shmPath s r s') (hr : r.isSome) :
    MemOk hugeSize env totalSz prot flag shmPath s ∧
      ¬SystemFails hugeSize env totalSz prot flag shmPath s ∧ s'.proc.errno = s.proc.errno := by
  unfold MemOk SystemFails
  cases h with
  | noMapping => cases hr
  | mallocFail => cases hr
  | malloc hmap hm hp => simp [hmap, hm, hp, Os.setHeap]
  | shm hmap hm h =>
    cases h with
    | mapped hfd hf hm' =>
      have := hf.noError
      simp_all [Os.setMap]
    | _ => cases hr

/-- No memory is obtained when it cannot be. A failing call of the system leaves a positive
`errno`, what the code finds wrong by itself a negative one. -/
theorem MemExit.fails (h : MemExit hugeSize env totalSz prot flag shmPath s none s') :
    ¬MemOk hugeSize env totalSz prot flag shmPath s ∧
      (SystemFails hugeSize env totalSz prot flag shmPath s ∧ 0 < s'.proc.errno ∨
        ¬SystemFails hugeSize env totalSz prot flag shmPath s ∧ s'.proc.errno < 0) := by
  unfold MemOk SystemFails
  cases h with
  | noMapping hmap => exact ⟨by simp [hmap], .inr ⟨by simp [hmap], (by decide : (-105 : Int) < 0)⟩⟩
  | mallocFail hmap hm hp =>
    have hn : needNew prot = true := by simp [needNew, hm]
    exact ⟨by simp [hm, hp], .inl ⟨by simp [hmap, hm, hp, hn], (by decide : (0 : Int) < 12)⟩⟩
  | shm hmap hm h =>
    rw [if_neg (by simp [hm]), if_neg (by simp [hm])]
    cases h with
    | noPath hn hp =>
      refine ⟨?_, .inr ⟨?_, (by decide : (-104 : Int) < 0)⟩⟩
      · intro ⟨_, _, hf, _⟩
        rw [hn] at hf
        rw [hp] at hf
        cases hf.1
      · intro ⟨_, hpath, _⟩
        rw [hp] at hpath
        cases hpath hn
    | openFail hpath hfd =>
      refine ⟨?_, .inl ⟨⟨hmap, hpath, .inl ⟨_, hfd⟩⟩, Subtype.property _⟩⟩
      intro ⟨_, ⟨fd, hfd'⟩, _⟩
      rw [hfd] at hfd'
      cases hfd'
    | truncFail hfd hn ht =>
      rw [hn]
      refine ⟨fun ⟨_, _, hf, _⟩ => not_fileOk_of_trunc ht hf,
        .inl ⟨⟨hmap, ?_, ?_⟩, Subtype.property _⟩⟩
      · intro h
        cases h
      · exact .inr (.inl ⟨_, ht⟩)
    | fstatFail hfd hn hpath ht =>
      rw [hn]
      refine ⟨fun ⟨_, _, hf, _⟩ => hf.noError ⟨_, ht⟩,
        .inl ⟨⟨hmap, fun _ => hpath, ?_⟩, Subtype.property _⟩⟩
      exact .inr (.inl ⟨_, ht⟩)
    | notExists hfd hn hpath hst h₀ =>
      rw [hn]
      refine ⟨fun ⟨_, _, hf, _⟩ => hf.2.2.1 h₀, .inr ⟨?_, (by decide : (-107 : Int) < 0)⟩⟩
      rintro ⟨_, _, ⟨e, he⟩ | ⟨e, he⟩ | ⟨hf, _⟩⟩
      · rw [hfd] at he
        cases he
      · rw [hst] at he
        cases he
      · exact hf.2.2.1 h₀
    | sizeError hfd hn hpath hst h₀ hne =>
      rw [hn]
      refine ⟨fun ⟨_, _, hf, _⟩ => hne hf.2.2.2, .inr ⟨?_, (by decide : (-108 : Int) < 0)⟩⟩
      rintro ⟨_, _, ⟨e, he⟩ | ⟨e, he⟩ | ⟨hf, _⟩⟩
      · rw [hfd] at he
        cases he
      · rw [hst] at he
        cases he
      · exact hne hf.2.2.2
    | mmapFail hfd hf hm' =>
      refine ⟨?_, .inl ⟨⟨hmap, ?_, .inr (.inr ⟨hf, _, hm'⟩)⟩, Subtype.property _⟩⟩
      · intro ⟨_, _, _, p, hp⟩
        rw [hm'] at hp
        cases hp
      · intro hn
        rw [hn] at hf
        exact hf.1

end Exits

/-! ## The constructors -/

/-- What changes only bytes of memory. -/
structure Kept (s s' : Os Path) : Prop where
  errno : s'.proc.errno = s.proc.errno
  fds : s'.proc.fds = s.proc.fds
  maps : ∀ p, (s'.proc.maps p).isSome = (s.proc.maps p).isSome
  heap : ∀ p, (s'.proc.heap p).isSome = (s.proc.heap p).isSome
  named : s'.files.named = s.files.named
  size : ∀ f, (s'.files.file f).size = (s.files.file f).size

section Kept

variable {s s' s'' : Os Path}

theorem Kept.refl (s : Os Path) : Kept s s :=
  ⟨rfl, rfl, fun _ => rfl, fun _ => rfl, rfl, fun _ => rfl⟩

theorem Kept.trans (h : Kept s s') (h' : Kept s' s'') : Kept s s'' where
  errno := h'.errno.trans h.errno
  fds := h'.fds.trans h.fds
  maps p := (h'.maps p).trans (h.maps p)
  heap p := (h'.heap p).trans (h.heap p)
  named := h'.named.trans h.named
  size f := (h'.size f).trans (h.size f)

theorem isSome_update {α β : Type} [DecidableEq α] {f : α → Option β} {a : α} {b : β}
    (h : (f a).isSome) (x : α) : (Function.update f a (some b) x).isSome = (f x).isSome := by
  by_cases hx : x = a
  · subst hx
    rw [Function.update_self, h]
    rfl
  · rw [Function.update_of_ne hx]

theorem kept_write (s : Os Path) (p : Addr) (a n : Nat) (image : Data) :
    Kept s (s.write p a n image) := by
  unfold Os.write
  split
  case h_1 hp =>
    exact { Kept.refl s with heap := isSome_update (by rw [hp]; rfl) }
  case h_2 f _ _ =>
    refine { Kept.refl s with size := fun x => ?_ }
    by_cases hx : x = f
    · subst hx
      simp [Os.setFile]
    · simp [Os.setFile, hx]
  case h_3 _ hp =>
    exact { Kept.refl s with maps := isSome_update (by rw [hp]; rfl) }
  case h_4 _ hp =>
    exact { Kept.refl s with maps := isSome_update (by rw [hp]; rfl) }
  case h_5 => exact Kept.refl s

end Kept

namespace Os

variable (env : Env)

/-- The stores of a constructor, one after the other. -/
def stores (s : Os Path) (p : Addr) : List Store → Os Path
  | [] => s
  | .size a v :: xs => (s.write p a 8 (bytes (n := 8) v)).stores p xs
  | .int a v :: xs => (s.write p a 4 (bytes (n := 4) v)).stores p xs

def initSync (s : Os Path) (p : Addr) (x : Sync) : Os Path :=
  s.write p x.offset x.size (env.initialised x)

def destroySync (s : Os Path) (p : Addr) (x : Sync) : Os Path :=
  s.write p x.offset x.size (env.destroyed x)

/-- The synchronisation objects are set up. -/
def synced (s : Os Path) (p : Addr) : Os Path :=
  ((s.initSync env p .mtx).initSync env p .writeable).initSync env p .readable

/-- One of the synchronisation objects is not, and those before it are destroyed again. -/
def syncFailed (s : Os Path) (p : Addr) : Os Path :=
  if env.syncInit .mtx ≠ 0 then s
  else if env.syncInit .writeable ≠ 0 then (s.initSync env p .mtx).destroySync env p .mtx
  else (((s.initSync env p .mtx).initSync env p .writeable).destroySync env p .mtx).destroySync
    env p .writeable

theorem kept_stores (s : Os Path) (p : Addr) (xs : List Store) : Kept s (s.stores p xs) := by
  induction xs generalizing s with
  | nil => exact .refl s
  | cons x xs ih =>
    cases x with
    | size a v => exact (kept_write s p a 8 _).trans (ih _)
    | int a v => exact (kept_write s p a 4 _).trans (ih _)

theorem kept_synced (s : Os Path) (p : Addr) : Kept s (s.synced env p) :=
  ((kept_write ..).trans (kept_write ..)).trans (kept_write ..)

theorem kept_syncFailed (s : Os Path) (p : Addr) : Kept s (s.syncFailed env p) := by
  unfold syncFailed
  split_ifs
  · exact .refl s
  · exact (kept_write ..).trans (kept_write ..)
  · exact (((kept_write ..).trans (kept_write ..)).trans (kept_write ..)).trans (kept_write ..)

end Os

/-- All synchronisation objects can be set up. -/
def Env.Syncs (env : Env) : Prop := ∀ x, env.syncInit x = 0

theorem Env.syncs_iff {env : Env} : env.Syncs ↔
    env.syncInit .mtx = 0 ∧ env.syncInit .writeable = 0 ∧ env.syncInit .readable = 0 := by
  refine ⟨fun h => ⟨h _, h _, h _⟩, ?_⟩
  intro ⟨h₁, h₂, h₃⟩ x
  cases x <;> assumption

instance (env : Env) : Decidable env.Syncs := decidable_of_iff' _ Env.syncs_iff

section Run

variable [DecidableEq Path] {env : Env} {s : Os Path} {p : Addr}

theorem run_storeAll (xs : List Store) :
    (storeAll p xs).run (exec env) s = ((), s.stores p xs) := by
  induction xs generalizing s with
  | nil => rfl
  | cons x xs ih =>
    cases x with
    | size a v => exact ih
    | int a v => exact ih

theorem run_syncInit {α : Type} (x : Sync) (k : CInt → SysProg Path α) :
    (syncInit p x >>= k).run (exec env) s =
    if env.syncInit x = 0 then (k 0).run (exec env) (s.initSync env p x)
    else (k (env.syncInit x)).run (exec env) s := by
  show (k (exec env (.syncInit p x) s).1).run (exec env) (exec env (.syncInit p x) s).2 = _
  by_cases h : env.syncInit x = 0
  · rw [if_pos h, show exec env (.syncInit p x) s = (0, s.initSync env p x) from if_pos h]
  · rw [if_neg h, show exec env (.syncInit p x) s = (env.syncInit x, s) from if_neg h]

theorem run_initSync : (initSync p).run (exec env) s =
    if env.Syncs then (true, s.synced env p) else (false, s.syncFailed env p) := by
  unfold initSync Os.syncFailed
  rw [run_syncInit]
  by_cases h₁ : env.syncInit .mtx = 0
  · rw [if_pos h₁]
    simp only [ne_eq, not_true, if_false]
    rw [run_syncInit]
    by_cases h₂ : env.syncInit .writeable = 0
    · rw [if_pos h₂]
      simp only [not_true, if_false]
      rw [run_syncInit]
      by_cases h₃ : env.syncInit .readable = 0
      · rw [if_pos h₃, if_pos (Env.syncs_iff.2 ⟨h₁, h₂, h₃⟩)]
        rfl
      · have hn : ¬env.Syncs := fun hs => h₃ (Env.syncs_iff.1 hs).2.2
        simp only [h₁, h₂, h₃, hn, not_true, not_false_eq_true, if_true, if_false]
        rfl
    · have hn : ¬env.Syncs := fun hs => h₂ (Env.syncs_iff.1 hs).2.1
      simp only [h₁, h₂, hn, not_true, not_false_eq_true, if_true, if_false]
      rfl
  · have hn : ¬env.Syncs := fun hs => h₁ (Env.syncs_iff.1 hs).1
    simp only [h₁, hn, ne_eq, not_false_eq_true, if_true, if_false]
    rfl

end Run

/-! ## The constructors -/

/-- The size that a constructor asks for. -/
def Ctor.totalSize (objNum objSize : SizeT) : Ctor → SizeT
  | .ring useSlot => (getTotalSize objNum objSize useSlot).totalSize
  | .block => blockTotalSize objNum objSize

/-- What a constructor stores into a new ring. -/
def Ctor.stores {Path : Type} (a : Args Path) (fd : CInt) : Ctor → List Store
  | .ring useSlot =>
    ringStores (getTotalSize a.objNum a.objSize useSlot) a.objNum useSlot a.prot fd
  | .block => blockStores a.objNum a.objSize a.prot fd

/-- The state in which a constructor stores into a new ring. -/
def Ctor.prepared (env : Env) (s : Os Path) (p : Addr) : Ctor → Os Path
  | .ring _ => s
  | .block => s.synced env p

section Exits

variable [DecidableEq Path] (hugeSize : SizeT → SizeT) (env : Env) (a : Args Path) (s : Os Path)

/-- The exits of a constructor. -/
inductive GetExit (c : Ctor) : Option Addr → Os Path → Prop
  | capacity : capacityWrong a.objNum = true → GetExit c none (s.fail ringbufCapacityWrong)
  | slotNa {useSlot} : c = .ring useSlot → capacityWrong a.objNum = false →
      useSlotNa useSlot = true → GetExit c none (s.fail ringbufUseSlotNa)
  | noMemory {s'} : capacityWrong a.objNum = false →
      (∀ useSlot, c = .ring useSlot → useSlotNa useSlot = false) →
      MemExit hugeSize env (c.totalSize a.objNum a.objSize) a.prot a.flag a.shmPath s none s' →
      GetExit c none s'
  | attached {p fd s'} : capacityWrong a.objNum = false →
      (∀ useSlot, c = .ring useSlot → useSlotNa useSlot = false) →
      MemExit hugeSize env (c.totalSize a.objNum a.objSize) a.prot a.flag a.shmPath s
        (some (p, fd)) s' →
      needNew a.prot = false → GetExit c (some p) s'
  | syncFail {p fd s'} : c = .block → capacityWrong a.objNum = false →
      MemExit hugeSize env (c.totalSize a.objNum a.objSize) a.prot a.flag a.shmPath s
        (some (p, fd)) s' →
      needNew a.prot = true → ¬env.Syncs → GetExit c none (s'.syncFailed env p)
  | created {p fd s'} : capacityWrong a.objNum = false →
      (∀ useSlot, c = .ring useSlot → useSlotNa useSlot = false) →
      MemExit hugeSize env (c.totalSize a.objNum a.objSize) a.prot a.flag a.shmPath s
        (some (p, fd)) s' →
      needNew a.prot = true → (c = .block → env.Syncs) →
      GetExit c (some p) ((c.prepared env s' p).stores p (c.stores a fd))

theorem run_construct (c : Ctor) : GetExit hugeSize env a s c
    ((construct hugeSize a c).run (exec env) s).1
    ((construct hugeSize a c).run (exec env) s).2 := by
  have hmem := fun totalSz => run_ringMemory hugeSize env totalSz a.prot a.flag a.shmPath s
  cases c with
  | ring useSlot =>
    simp only [construct, getBuf]
    cases hcap : capacityWrong a.objNum with
    | true => exact .capacity hcap
    | false =>
      cases hna : useSlotNa useSlot with
      | true => exact .slotNa rfl hcap hna
      | false =>
        have hna' : ∀ u, Ctor.ring useSlot = .ring u → useSlotNa u = false :=
          fun u hu => Ctor.ring.inj hu ▸ hna
        simp only [Bool.false_eq_true, if_false]
        rw [Prog.run_bind]
        have h := hmem (getTotalSize a.objNum a.objSize useSlot).totalSize
        generalize Prog.run _ _ _ = x at h ⊢
        obtain ⟨r, s'⟩ := x
        cases r with
        | none => exact .noMemory hcap hna' h
        | some m =>
          obtain ⟨p, fd⟩ := m
          cases hn : needNew a.prot with
          | false => exact .attached hcap hna' h hn
          | true =>
            have hcreated : GetExit hugeSize env a s (.ring useSlot) (some p)
                (s'.stores p ((Ctor.ring useSlot).stores a fd)) :=
              .created hcap hna' h hn (fun hc => nomatch hc)
            simp only [if_true]
            rw [Prog.run_bind, run_storeAll]
            exact hcreated
  | block =>
    simp only [construct, getBlockBuf]
    cases hcap : capacityWrong a.objNum with
    | true => exact .capacity hcap
    | false =>
      simp only [Bool.false_eq_true, if_false]
      rw [Prog.run_bind]
      have h := hmem (blockTotalSize a.objNum a.objSize)
      generalize Prog.run _ _ _ = x at h ⊢
      obtain ⟨r, s'⟩ := x
      cases r with
      | none => exact .noMemory hcap (fun _ hc => nomatch hc) h
      | some m =>
        obtain ⟨p, fd⟩ := m
        cases hn : needNew a.prot with
        | false => exact .attached hcap (fun _ hc => nomatch hc) h hn
        | true =>
          simp only [if_true]
          rw [Prog.run_bind, run_initSync]
          by_cases hs : env.Syncs
          · simp only [if_pos hs, if_true]
            rw [Prog.run_bind, run_storeAll]
            exact .created hcap (fun _ hc => nomatch hc) h hn fun _ => hs
          · simp only [if_neg hs, Bool.false_eq_true, if_false]
            exact .syncFail rfl hcap h hn hs

end Exits

end Setup

end RingBuf
