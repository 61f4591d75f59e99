import RingBuf.Setup.System

/-!
# `RingBuf_common.c`

The constructors `get_buf` and `get_block_buf` with their helpers, the destructors, and the
constructors that return their error. `NULL` is `none`, and a failing constructor leaves its
reason in `errno`.

The number of bytes of a mapping with huge pages is computed in floating point; the function
that computes it is a parameter (`hugeSize`).
-/

namespace RingBuf

open Conc Word Bytes

namespace Setup

def ringbufSuccess : Int := 0
def ringbufInvalidParam : Int := -104
def ringbufNoMappingType : Int := -105
def ringbufCapacityWrong : Int := -106
def ringbufMappingNotExists : Int := -107
def ringbufMappingSizeError : Int := -108
def ringbufUseSlotNa : Int := -111

/-- `enum RingBufMappingType` -/
def mapMalloc : CInt := 1 <<< 24
def mapShm : CInt := 1 <<< 25
def mapNew : CInt := 1 <<< 26
def mapExists : CInt := 1 <<< 27

variable {Path : Type}

abbrev setErrno (e : Int) : SysProg Path Unit := .op (.setErrno e) .ret
abbrev getErrno : SysProg Path Int := .op .getErrno .ret
abbrev malloc (size : SizeT) : SysProg Path (Option Addr) := .op (.malloc size) .ret
abbrev free (p : Addr) : SysProg Path Unit := .op (.free p) .ret
abbrev openFile (path : Path) : SysProg Path CInt := .op (.openFile path) .ret
abbrev memfdCreate : SysProg Path CInt := .op .memfdCreate .ret
abbrev ftruncate (fd : CInt) (size : SizeT) : SysProg Path CInt := .op (.ftruncate fd size) .ret
abbrev fstat (fd : CInt) : SysProg Path (Option SizeT) := .op (.fstat fd) .ret
abbrev mmap (len : SizeT) (flag fd : CInt) : SysProg Path (Option Addr) :=
  .op (.mmap len flag fd) .ret
abbrev munmap (p : Addr) (len : SizeT) : SysProg Path Unit := .op (.munmap p len) .ret
abbrev close (fd : CInt) : SysProg Path Unit := .op (.close fd) .ret
abbrev syncInit (p : Addr) (x : Sync) : SysProg Path CInt := .op (.syncInit p x) .ret
abbrev syncDestroy (p : Addr) (x : Sync) : SysProg Path Unit := .op (.syncDestroy p x) .ret
abbrev loadSize (p : Addr) (a : Nat) : SysProg Path SizeT := .op (.loadSize p a) .ret
abbrev loadInt (p : Addr) (a : Nat) : SysProg Path CInt := .op (.loadInt p a) .ret

/-! ## Memory for a ring -/

/-- `get_buf_malloc`, which returns the pointer together with `*fd`. -/
def getBufMalloc (totalSz : SizeT) : SysProg Path (Option (Addr × CInt)) := do
  let p ← malloc totalSz
  match p with
  | none => do
    setErrno enomem
    pure none
  | some p => pure (some (p, -9999))

/-- `get_buf_shm` from its last test of `flag` on. -/
def mapShmFile (totalSz : SizeT) (fd flag : CInt) : SysProg Path (Option (Addr × CInt)) := do
  let flag := if !has flag mapShared && !has flag mapPrivate then flag ||| mapShared else flag
  let p ← mmap totalSz flag fd
  match p with
  | none => do
    close fd
    pure none
  | some p => pure (some (p, fd))

/-- The descriptor of the file that backs the mapping. -/
def openShm : Option Path → SysProg Path CInt
  | some path => openFile path
  | none => memfdCreate

/-- `get_buf_shm`, which returns the pointer together with `*fd`. -/
def getBufShm (hugeSize : SizeT → SizeT) (totalSz : SizeT) (prot flag : CInt)
    (shmPath : Option Path) (needNew : Bool) : SysProg Path (Option (Addr × CInt)) :=
  if !needNew && shmPath.isNone then do
    setErrno ringbufInvalidParam
    pure none
  else do
    let totalSz := if has mapHugetlb flag then hugeSize totalSz else totalSz
    let fd ← openShm shmPath
    if fd.slt 0 then pure none
    else if needNew then do
      let rc ← ftruncate fd totalSz
      if rc.slt 0 then pure none
      else mapShmFile totalSz fd flag
    else if has prot mapExists then do
      let st ← fstat fd
      match st with
      | none => pure none
      | some size =>
        if size = 0 then do
          setErrno ringbufMappingNotExists
          pure none
        else if size ≠ totalSz then do
          setErrno ringbufMappingSizeError
          pure none
        else mapShmFile totalSz fd flag
    else mapShmFile totalSz fd flag

/-- `useMalloc` of both constructors. -/
def useMalloc (prot : CInt) : Bool := !has prot (mapMalloc ||| mapShm) || has prot mapMalloc

/-- `needNew` of both constructors. -/
def needNew (prot : CInt) : Bool := useMalloc prot || !has prot mapExists

/-- The lines of both constructors that obtain memory of a computed size. -/
def ringMemory (hugeSize : SizeT → SizeT) (totalSize : SizeT) (shmPath : Option Path)
    (prot flag : CInt) : SysProg Path (Option (Addr × CInt)) :=
  if !has prot (mapMalloc ||| mapShm) then do
    setErrno ringbufNoMappingType
    pure none
  else if useMalloc prot then getBufMalloc totalSize
  else getBufShm hugeSize totalSize prot flag shmPath (needNew prot)

/-! ## `get_buf` -/

/-- The header fields of both ring types. -/
inductive Field
  | head
  | tail
  | objSize
  | objNum
  | mask
  | totalSize
  | mapType
  | fd

namespace Field

/-- The offsets of the fields of `RingBuf_t`. -/
def offset : Field → Nat
  | head => 0
  | tail => 64
  | objSize => 128
  | objNum => 136
  | mask => 144
  | totalSize => 152
  | mapType => 160
  | fd => 164

/-- The offsets of the fields of `BRingBuf_t`. -/
def blockOffset : Field → Nat
  | head => 0
  | tail => 64
  | objSize => 320
  | objNum => 328
  | mask => 336
  | totalSize => 344
  | mapType => 352
  | fd => 356

end Field

/-- The offsets of `buffer_offset_` and `slot_offset_` in `RingBuf_t`. -/
def bufferOffsetAt : Nat := 168
def slotOffsetAt : Nat := 176

/-- A store of a constructor. -/
inductive Store
  | size (a : Nat) (v : SizeT)
  | int (a : Nat) (v : CInt)

/-- The stores, one after the other. -/
def storeAll (p : Addr) : List Store → SysProg Path Unit
  | [] => pure ()
  | .size a v :: xs => .op (.storeSize p a v) fun _ => storeAll p xs
  | .int a v :: xs => .op (.storeInt p a v) fun _ => storeAll p xs

/-- The value of `mapType_`. -/
def mapType (prot : CInt) : CInt := if useMalloc prot then mapMalloc else mapShm

/-- `slot_offset_`, and `f i` into each slot `i`. -/
def slotStores (slotOffS objNum : SizeT) (f : SizeT → SizeT) : List Store :=
  .size slotOffsetAt slotOffS :: (List.range objNum.toNat).map fun i =>
    .size (slotOffS + sizeofSlot * .ofNat 64 i).toNat (f (.ofNat 64 i))

/-- The stores of `get_buf` into the header of a new ring, in its order. -/
def headerStores (info : SizeInfo) (objNum : SizeT) (prot fd : CInt) : List Store :=
  [ .size Field.head.offset 0,
    .size Field.tail.offset 0,
    .size Field.objSize.offset info.alignedObjSize,
    .size Field.objNum.offset objNum,
    .size Field.mask.offset (objNum - 1),
    .size Field.totalSize.offset info.totalSize,
    .int Field.mapType.offset (mapType prot),
    .int Field.fd.offset fd,
    .size bufferOffsetAt info.bufOffS ]

/-- The stores of `get_buf` that depend on the kind of slots. -/
def slotInit (info : SizeInfo) (objNum : SizeT) (useSlot : CInt) : List Store :=
  if has useSlot mpmcSlot then slotStores info.slotOffS objNum id
  else if has useSlot mpscSlot then slotStores info.slotOffS objNum fun _ => slotEmpty
  else []

/-- What `get_buf` stores into a new ring. -/
def ringStores (info : SizeInfo) (objNum : SizeT) (useSlot prot fd : CInt) : List Store :=
  headerStores info objNum prot fd ++ slotInit info objNum useSlot

/-- `get_buf` -/
def getBuf (hugeSize : SizeT → SizeT) (objNum objSize : SizeT) (shmPath : Option Path)
    (prot flag useSlot : CInt) : SysProg Path (Option Addr) :=
  if capacityWrong objNum then do
    setErrno ringbufCapacityWrong
    pure none
  else if useSlotNa useSlot then do
    setErrno ringbufUseSlotNa
    pure none
  else do
    let info := getTotalSize objNum objSize useSlot
    let out ← ringMemory hugeSize info.totalSize shmPath prot flag
    match out with
    | none => pure none
    | some (p, fd) =>
      if needNew prot then do
        storeAll p (ringStores info objNum useSlot prot fd)
        pure (some p)
      else pure (some p)

/-- The lines of both destructors that give the memory back. -/
def release (offset : Field → Nat) (r : Addr) : SysProg Path Unit := do
  let mapType ← loadInt r (offset .mapType)
  if mapType = mapShm then do
    let fd ← loadInt r (offset .fd)
    close fd
    let totalSize ← loadSize r (offset .totalSize)
    munmap r totalSize
  else if mapType = mapMalloc then free r
  else pure ()

/-- `del_buf` -/
def delBuf : Option Addr → SysProg Path Unit
  | none => pure ()
  | some r => release Field.offset r

/-! ## `get_block_buf` -/

/-- The initialisation of the mutex and the condition variables, and whether it succeeds. In
shared memory they get attributes, else the calls are the same. -/
def initSync (p : Addr) : SysProg Path Bool := do
  let rc ← syncInit p .mtx
  if rc ≠ 0 then pure false
  else do
    let rc ← syncInit p .writeable
    if rc ≠ 0 then do
      syncDestroy p .mtx
      pure false
    else do
      let rc ← syncInit p .readable
      if rc ≠ 0 then do
        syncDestroy p .mtx
        syncDestroy p .writeable
        pure false
      else pure true

/-- What `get_block_buf` stores into a new ring, in its order. -/
def blockStores (objNum objSize : SizeT) (prot fd : CInt) : List Store :=
  [ .size Field.head.blockOffset 0,
    .size Field.tail.blockOffset 0,
    .size Field.objSize.blockOffset (getAlignedOffset objSize cacheLineSize),
    .size Field.objNum.blockOffset objNum,
    .size Field.mask.blockOffset (objNum - 1),
    .size Field.totalSize.blockOffset (blockTotalSize objNum objSize),
    .int Field.mapType.blockOffset (mapType prot),
    .int Field.fd.blockOffset fd ]

/-- `get_block_buf` -/
def getBlockBuf (hugeSize : SizeT → SizeT) (objNum objSize : SizeT) (shmPath : Option Path)
    (prot flag : CInt) : SysProg Path (Option Addr) :=
  if capacityWrong objNum then do
    setErrno ringbufCapacityWrong
    pure none
  else do
    let out ← ringMemory hugeSize (blockTotalSize objNum objSize) shmPath prot flag
    match out with
    | none => pure none
    | some (p, fd) =>
      if needNew prot then do
        let ok ← initSync p
        if ok then do
          storeAll p (blockStores objNum objSize prot fd)
          pure (some p)
        else pure none
      else pure (some p)

/-- `del_block_buf` -/
def delBlockBuf : Option Addr → SysProg Path Unit
  | none => pure ()
  | some r => do
    syncDestroy r .mtx
    syncDestroy r .writeable
    syncDestroy r .readable
    release Field.blockOffset r

/-! ## The constructors of the four kinds -/

/-- The kinds of ring. -/
inductive Kind
  | spsc
  | mpsc
  | mpmc
  | block
  deriving DecidableEq

/-- The arguments of a constructor. -/
structure Args (Path : Type) where
  objNum : SizeT
  objSize : SizeT
  shmPath : Option Path
  prot : CInt
  flag : CInt

/-- `Get_SpscRingBuf`, `Get_MpscRingBuf`, `Get_MpmcRingBuf` and `Get_BlockRingBuf` -/
def getRingBuf (hugeSize : SizeT → SizeT) (a : Args Path) : Kind → SysProg Path (Option Addr)
  | .spsc => getBuf hugeSize a.objNum a.objSize a.shmPath a.prot a.flag noSlot
  | .mpsc => getBuf hugeSize a.objNum a.objSize a.shmPath a.prot a.flag mpscSlot
  | .mpmc => getBuf hugeSize a.objNum a.objSize a.shmPath a.prot a.flag mpmcSlot
  | .block => getBlockBuf hugeSize a.objNum a.objSize a.shmPath a.prot a.flag

/-- `Del_SpscRingBuf`, `Del_MpscRingBuf`, `Del_MpmcRingBuf` and `Del_BlockRingBuf` -/
def delRingBuf (r : Option Addr) : Kind → SysProg Path Unit
  | .block => delBlockBuf r
  | _ => delBuf r

/-- The two constructors: `get_buf` with a slot kind, and `get_block_buf`. -/
inductive Ctor
  | ring (useSlot : CInt)
  | block

/-- A call of one of the two constructors. -/
def construct (hugeSize : SizeT → SizeT) (a : Args Path) : Ctor → SysProg Path (Option Addr)
  | .ring useSlot => getBuf hugeSize a.objNum a.objSize a.shmPath a.prot a.flag useSlot
  | .block => getBlockBuf hugeSize a.objNum a.objSize a.shmPath a.prot a.flag

/-- The constructor of a kind. -/
def Kind.ctor : Kind → Ctor
  | .spsc => .ring noSlot
  | .mpsc => .ring mpscSlot
  | .mpmc => .ring mpmcSlot
  | .block => .block

theorem getRingBuf_eq (hugeSize : SizeT → SizeT) (a : Args Path) (k : Kind) :
    getRingBuf hugeSize a k = construct hugeSize a k.ctor := by
  cases k <;> rfl

/-- The body of a constructor that returns its error: the returned value and `*out`. The flag
says whether `out` is not `NULL`. -/
def explicitError (out : Bool) (get : SysProg Path (Option Addr)) :
    SysProg Path (Int × Option Addr) :=
  if !out then pure (ringbufInvalidParam, none)
  else do
    let p ← get
    match p with
    | none => do
      let e ← getErrno
      pure (e, none)
    | some p => pure (ringbufSuccess, some p)

/-- `Get_SpscRingBuf_e` -/
def getSpscRingBufE (hugeSize : SizeT → SizeT) (out : Bool) (a : Args Path) :
    SysProg Path (Int × Option Addr) :=
  explicitError out (getBuf hugeSize a.objNum a.objSize a.shmPath a.prot a.flag noSlot)

/-- `Get_MpscRingBuf_e` -/
def getMpscRingBufE (hugeSize : SizeT → SizeT) (out : Bool) (a : Args Path) :
    SysProg Path (Int × Option Addr) :=
  explicitError out (getBuf hugeSize a.objNum a.objSize a.shmPath a.prot a.flag mpscSlot)

/-- `Get_MpmcRingBuf_e` -/
def getMpmcRingBufE (hugeSize : SizeT → SizeT) (out : Bool) (a : Args Path) :
    SysProg Path (Int × Option Addr) :=
  explicitError out (getBuf hugeSize a.objNum a.objSize a.shmPath a.prot a.flag mpmcSlot)

/-- `Get_BlockRingBuf_e` -/
def getBlockRingBufE (hugeSize : SizeT → SizeT) (out : Bool) (a : Args Path) :
    SysProg Path (Int × Option Addr) :=
  explicitError out (getBlockBuf hugeSize a.objNum a.objSize a.shmPath a.prot a.flag)

/-- The explicit-error constructor of a kind. -/
def getRingBufE (hugeSize : SizeT → SizeT) (out : Bool) (a : Args Path) :
    Kind → SysProg Path (Int × Option Addr)
  | .spsc => getSpscRingBufE hugeSize out a
  | .mpsc => getMpscRingBufE hugeSize out a
  | .mpmc => getMpmcRingBufE hugeSize out a
  | .block => getBlockRingBufE hugeSize out a

theorem getRingBufE_eq (hugeSize : SizeT → SizeT) (out : Bool) (a : Args Path) (k : Kind) :
    getRingBufE hugeSize out a k = explicitError out (construct hugeSize a k.ctor) := by
  cases k <;> rfl

end Setup

end RingBuf
