import RingBuf.Setup.Layout

/-!
# The system calls of the constructors

A process has an `errno`, a descriptor table, mappings and heap blocks; all processes share the
files. The constructors and destructors are programs over the calls they make (`SysOp`), and
`exec` says what each call does.

Any of these calls may fail. What the surroundings decide (`Env`) is whether a call fails, with
which `errno`, and else which descriptor or address it hands out; the kernel hands out only what
the process does not hold yet.
-/

namespace RingBuf

open Conc Word Bytes

namespace Setup

/-- What `errno` is set to by a failing call of the system. -/
abbrev Errno := { e : Int // 0 < e }

def ebadf : Errno := ⟨9, by decide⟩
def enomem : Errno := ⟨12, by decide⟩
def einval : Errno := ⟨22, by decide⟩
def emfile : Errno := ⟨24, by decide⟩

/-! ## Files and processes -/

/-- A pointer to the start of a heap block or a mapping. -/
abbrev Addr := Nat

abbrev FileId := Nat

structure File where
  size : SizeT
  data : Data

/-- A file without content. -/
def File.empty : File := ⟨0, fun _ => 0⟩

/-- The file cut or grown to `size` bytes; what it grows by is zero. -/
def File.resize (f : File) (size : SizeT) : File where
  size := size
  data a := if a < min f.size.toNat size.toNat then f.data a else 0

/-- All files, with the names of those that have one. -/
structure Files (Path : Type) where
  named : Path → Option FileId
  file : FileId → File
  /-- The next file to be created. -/
  fresh : FileId

/-- What stands behind a mapping. -/
inductive Backing
  | shared (f : FileId)
  /-- Stores go to a copy that belongs to the process. -/
  | priv (f : FileId) (copy : Nat → Option Byte)
  | anon (d : Data)

structure Proc where
  errno : Int
  fds : CInt → Option FileId
  maps : Addr → Option Backing
  heap : Addr → Option Data

/-- A process, and the files it shares with the others. -/
structure Os (Path : Type) where
  files : Files Path
  proc : Proc

variable {Path : Type}

namespace Os

/-- A call fails. -/
def fail (s : Os Path) (e : Int) : Os Path := { s with proc := { s.proc with errno := e } }

/-- The process gets or gives up a descriptor. -/
def setFd (s : Os Path) (fd : CInt) (f : Option FileId) : Os Path :=
  { s with proc := { s.proc with fds := Function.update s.proc.fds fd f } }

def setMap (s : Os Path) (p : Addr) (b : Option Backing) : Os Path :=
  { s with proc := { s.proc with maps := Function.update s.proc.maps p b } }

def setHeap (s : Os Path) (p : Addr) (d : Option Data) : Os Path :=
  { s with proc := { s.proc with heap := Function.update s.proc.heap p d } }

def setFile (s : Os Path) (f : FileId) (x : File) : Os Path :=
  { s with files := { s.files with file := Function.update s.files.file f x } }

/-- A new file, without a name. -/
def create (s : Os Path) : Os Path :=
  { s with files := { s.files with
    file := Function.update s.files.file s.files.fresh .empty
    fresh := s.files.fresh + 1 } }

/-- A file gets a name. -/
def link [DecidableEq Path] (s : Os Path) (path : Path) (f : FileId) : Os Path :=
  { s with files := { s.files with named := Function.update s.files.named path (some f) } }

/-- The bytes at a pointer. -/
def data (s : Os Path) (p : Addr) : Data :=
  match s.proc.heap p, s.proc.maps p with
  | some d, _ => d
  | none, some (.shared f) => (s.files.file f).data
  | none, some (.priv f copy) => fun a => (copy a).getD ((s.files.file f).data a)
  | none, some (.anon d) => d
  | none, none => fun _ => 0

/-- The word at offset `a` of a pointer. -/
def word (s : Os Path) (p : Addr) (a : Nat) : SizeT := load 8 (s.data p) a

/-- The `int` at offset `a` of a pointer. -/
def int (s : Os Path) (p : Addr) (a : Nat) : CInt := load 4 (s.data p) a

/-- Copy the first `n` bytes of `image` to offset `a` of a pointer. -/
def write (s : Os Path) (p : Addr) (a n : Nat) (image : Data) : Os Path :=
  match s.proc.heap p, s.proc.maps p with
  | some d, _ => s.setHeap p (some (blit d a n image))
  | none, some (.shared f) =>
    s.setFile f { s.files.file f with data := blit (s.files.file f).data a n image }
  | none, some (.priv f copy) =>
    s.setMap p (some (.priv f fun b => if a ≤ b ∧ b < a + n then some (image (b - a)) else copy b))
  | none, some (.anon d) => s.setMap p (some (.anon (blit d a n image)))
  | none, none => s

end Os

/-! ## The calls -/

/-- The synchronisation objects of `BRingBuf_t`. -/
inductive Sync
  | mtx
  | writeable
  | readable
  deriving DecidableEq

namespace Sync

/-- Their offsets in `BRingBuf_t`. -/
def offset : Sync → Nat
  | mtx => 128
  | writeable => 192
  | readable => 256

/-- `sizeof(pthread_mutex_t)` and `sizeof(pthread_cond_t)` -/
def size : Sync → Nat
  | mtx => 40
  | writeable | readable => 48

end Sync

/-- The calls that the constructors and destructors make, and their accesses to memory. -/
inductive SysOp (Path : Type)
  | setErrno (e : Int)
  | getErrno
  | malloc (size : SizeT)
  | free (p : Addr)
  /-- `open(path, O_CREAT | O_RDWR, 0666)` -/
  | openFile (path : Path)
  | memfdCreate
  | ftruncate (fd : CInt) (size : SizeT)
  | fstat (fd : CInt)
  | mmap (len : SizeT) (flag fd : CInt)
  | munmap (p : Addr) (len : SizeT)
  | close (fd : CInt)
  /-- `pthread_mutex_init` or `pthread_cond_init` -/
  | syncInit (p : Addr) (x : Sync)
  | syncDestroy (p : Addr) (x : Sync)
  | storeSize (p : Addr) (a : Nat) (v : SizeT)
  | storeInt (p : Addr) (a : Nat) (v : CInt)
  | loadSize (p : Addr) (a : Nat)
  | loadInt (p : Addr) (a : Nat)

/-- What a call answers: `none` stands for `NULL`, `MAP_FAILED` or a `struct stat` that was not
filled in. -/
@[reducible] def SysOp.Res : SysOp Path → Type
  | .getErrno => Int
  | .malloc _ | .mmap _ _ _ => Option Addr
  | .openFile _ | .memfdCreate | .ftruncate _ _ | .syncInit _ _ | .loadInt _ _ => CInt
  | .fstat _ => Option SizeT
  | .loadSize _ _ => SizeT
  | _ => Unit

/-- How the calls of one constructor or destructor go. -/
structure Env where
  malloc : Except Errno Addr
  /-- `open` or `memfd_create`. -/
  fd : Except Errno CInt
  ftruncate : Except Errno Unit
  fstat : Except Errno Unit
  mmap : Except Errno Addr
  /-- What `pthread_*_init` returns. -/
  syncInit : Sync → CInt
  /-- What a new heap block holds. -/
  junk : Data
  /-- What an initialised, and what a destroyed object looks like. -/
  initialised : Sync → Data
  destroyed : Sync → Data

/-- Nothing fails, and the first descriptor and the first address are handed out. -/
def Env.smooth : Env where
  malloc := .ok 1
  fd := .ok 3
  ftruncate := .ok ()
  fstat := .ok ()
  mmap := .ok 1
  syncInit _ := 0
  junk _ := 0
  initialised _ _ := 1
  destroyed _ _ := 2

/-- A process that holds nothing, and no files. -/
def Os.boot : Os Path where
  files := ⟨fun _ => none, fun _ => .empty, 0⟩
  proc := ⟨0, fun _ => none, fun _ => none, fun _ => none⟩

def mapShared : CInt := 0x01
def mapPrivate : CInt := 0x02
def mapAnonymous : CInt := 0x20
def mapHugetlb : CInt := 0x40000

/-- The address that a call hands out. -/
def Proc.newAddr (q : Proc) (x : Except Errno Addr) : Except Errno Addr := do
  let p ← x
  if (q.heap p).isSome || (q.maps p).isSome then throw enomem
  pure p

/-- The address of a new mapping of `len` bytes. -/
def Proc.newMap (q : Proc) (x : Except Errno Addr) (len : SizeT) : Except Errno Addr :=
  if len = 0 then throw einval else q.newAddr x

/-- The descriptor that a call hands out. -/
def Proc.newFd (q : Proc) (x : Except Errno CInt) : Except Errno CInt := do
  let fd ← x
  if fd.slt 0 || (q.fds fd).isSome then throw emfile
  pure fd

/-- A file cannot be cut to a negative `off_t`. -/
def Env.truncTo (env : Env) (size : SizeT) : Except Errno Unit := do
  env.ftruncate
  if size.slt 0 then throw einval

/-- What `mmap` maps. -/
def backing (flag : CInt) (f : FileId) : Backing :=
  if has flag mapAnonymous then .anon fun _ => 0
  else if has flag mapShared then .shared f
  else .priv f fun _ => none

/-- What each call does. -/
def exec [DecidableEq Path] (env : Env) : (o : SysOp Path) → Os Path → o.Res × Os Path
  | .setErrno e, s => ((), s.fail e)
  | .getErrno, s => (s.proc.errno, s)
  | .malloc _, s =>
    match s.proc.newAddr env.malloc with
    | .ok p => (some p, s.setHeap p (some env.junk))
    | .error e => (none, s.fail e)
  | .free p, s => ((), s.setHeap p none)
  | .openFile path, s =>
    match s.proc.newFd env.fd, s.files.named path with
    | .ok fd, some f => (fd, s.setFd fd (some f))
    | .ok fd, none => (fd, (s.create.link path s.files.fresh).setFd fd (some s.files.fresh))
    | .error e, _ => (-1, s.fail e)
  | .memfdCreate, s =>
    match s.proc.newFd env.fd with
    | .ok fd => (fd, s.create.setFd fd (some s.files.fresh))
    | .error e => (-1, s.fail e)
  | .ftruncate fd size, s =>
    match env.truncTo size, s.proc.fds fd with
    | .ok _, some f => (0, s.setFile f ((s.files.file f).resize size))
    | .ok _, none => (-1, s.fail ebadf)
    | .error e, _ => (-1, s.fail e)
  | .fstat fd, s =>
    match env.fstat, s.proc.fds fd with
    | .ok _, some f => (some (s.files.file f).size, s)
    | .ok _, none => (none, s.fail ebadf)
    | .error e, _ => (none, s.fail e)
  | .mmap len flag fd, s =>
    match s.proc.newMap env.mmap len, s.proc.fds fd with
    | .ok p, some f => (some p, s.setMap p (some (backing flag f)))
    | .ok _, none => (none, s.fail ebadf)
    | .error e, _ => (none, s.fail e)
  | .munmap p _, s => ((), s.setMap p none)
  | .close fd, s => ((), if (s.proc.fds fd).isSome then s.setFd fd none else s.fail ebadf)
  | .syncInit p x, s =>
    if env.syncInit x = 0 then (0, s.write p x.offset x.size (env.initialised x))
    else (env.syncInit x, s)
  | .syncDestroy p x, s => ((), s.write p x.offset x.size (env.destroyed x))
  | .storeSize p a v, s => ((), s.write p a 8 (bytes (n := 8) v))
  | .storeInt p a v, s => ((), s.write p a 4 (bytes (n := 4) v))
  | .loadSize p a, s => (s.word p a, s)
  | .loadInt p a, s => (s.int p a, s)

/-- A program that makes calls of the system. -/
abbrev SysProg (Path α : Type) := Prog (SysOp Path) SysOp.Res Empty α

end Setup

end RingBuf
