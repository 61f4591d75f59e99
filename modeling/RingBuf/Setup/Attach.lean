import RingBuf.Setup.Clobber

/-!
# Attaching to a ring

`MAP_EXISTS` compares one number with the file: the total size that it computes for its own
parameters. So an attach succeeds just when this is the total size of the ring that was created
there (`attach_iff`), and different capacities, object sizes or kinds may add up to the same. What
the attached header then says also depends on the flags of the two mappings: it is that of the
creator if both map the file itself and the creator's stores reach it, else it is zero.
-/

namespace RingBuf

open Conc Word Bytes

namespace Setup

/-- The parameters of a ring. -/
structure Geometry where
  objNum : SizeT
  objSize : SizeT
  kind : RingBufSlot

/-- The slot kind as `get_buf` gets it. -/
def slotFlag : RingBufSlot → CInt
  | .noSlot => noSlot
  | .mpscSlot => mpscSlot
  | .mpmcSlot => mpmcSlot

/-- Whether a ring has slots. -/
def hasSlots : RingBufSlot → Bool
  | .noSlot => false
  | .mpscSlot | .mpmcSlot => true

theorem has_slotFlag (k : RingBufSlot) : has (slotFlag k) (mpmcSlot ||| mpscSlot) = hasSlots k := by
  cases k <;> rfl

theorem useSlotNa_slotFlag (k : RingBufSlot) : useSlotNa (slotFlag k) = false := by
  cases k <;> rfl

namespace Geometry

/-- The capacity is accepted, and the sizes do not wrap around. -/
def Valid (g : Geometry) : Prop :=
  capacityWrong g.objNum = false ∧ SizesFit sizeofRingBuf g.objNum g.objSize (hasSlots g.kind)

/-- The bytes of the whole ring. -/
def total (g : Geometry) : Nat :=
  192 + g.objNum.toNat * lines g.objSize.toNat + if hasSlots g.kind then g.objNum.toNat * 64 else 0

/-- The sizes that `get_buf` computes. -/
def info (g : Geometry) : SizeInfo := getTotalSize g.objNum g.objSize (slotFlag g.kind)

/-- The layout of the ring. -/
def layout (g : Geometry) : Layout := ringLayout g.objNum g.objSize (slotFlag g.kind)

theorem layout_packed (g : Geometry) : g.layout.Packed :=
  ringLayout_packed g.objNum g.objSize (useSlotNa_slotFlag g.kind)

theorem layout_objSize (g : Geometry) :
    g.layout.objSize = getAlignedOffset g.objSize cacheLineSize := by
  simp only [layout, ringLayout, getTotalSize]
  split_ifs <;> rfl

theorem layout_isSome (g : Geometry) : g.layout.slotOffset.isSome = hasSlots g.kind := by
  rw [← has_slotFlag]
  simp only [layout, ringLayout]
  split_ifs with hs
  · exact hs.symm
  · exact (Bool.eq_false_iff.2 hs).symm

variable {g : Geometry} (h : g.Valid)
include h

theorem toNat_alignedObjSize :
    (getAlignedOffset g.objSize cacheLineSize).toNat = lines g.objSize.toNat :=
  toNat_getAlignedOffset_of_le h.2.1

theorem extent_layout : g.layout.extent = g.total := by
  unfold Layout.extent Layout.bufferEnd
  rw [g.layout_isSome, g.layout_objSize, toNat_alignedObjSize h]
  rfl

theorem total_lt : g.total < 2 ^ 64 := h.2.2

theorem toNat_totalSize : g.info.totalSize.toNat = g.total := by
  have hlt := total_lt h
  rw [← extent_layout h] at hlt
  exact (g.layout_packed.toNat_totalSize hlt).trans (extent_layout h)

theorem toNat_slot (hs : hasSlots g.kind = true) {i : Nat} (hi : i < g.objNum.toNat) :
    (g.info.slotOffS + sizeofSlot * .ofNat 64 i).toNat =
      192 + g.objNum.toNat * lines g.objSize.toNat + i * 64 := by
  have hlt := total_lt h
  rw [← extent_layout h, Layout.extent, if_pos (g.layout_isSome.trans hs)] at hlt
  have hinfo : g.info.slotOffS = g.layout.header + g.layout.objSize * g.layout.objNum := by
    have hflag : has (slotFlag g.kind) (mpmcSlot ||| mpscSlot) = true := (has_slotFlag _).trans hs
    rw [g.layout_objSize, info, getTotalSize_slots _ _ hflag]
    rfl
  have hi' : (BitVec.ofNat 64 i).toNat = i := by
    have := g.objNum.isLt
    rw [BitVec.toNat_ofNat]
    exact Nat.mod_eq_of_lt (by omega)
  have hN : g.layout.objNum.toNat = g.objNum.toNat := rfl
  rw [hinfo, Layout.toNat_slot (by rw [hi']; omega), hi', Layout.bufferEnd, g.layout_objSize,
    toNat_alignedObjSize h]
  rfl

theorem le_slot (hs : hasSlots g.kind = true) {i : Nat} (hi : i < g.objNum.toNat) :
    192 ≤ (g.info.slotOffS + sizeofSlot * .ofNat 64 i).toNat := by
  rw [toNat_slot h hs hi]
  omega

end Geometry

/-! ## The header of a new ring -/

section Header

theorem load_storeData_mem {d : Data} (pre : List Store) {post : List Store} {a : Nat} {v : SizeT}
    (h : ∀ x ∈ post, a + 8 ≤ x.area.1 ∨ x.area.1 + x.area.2 ≤ a) :
    load 8 (storeData d (pre ++ .size a v :: post)) a = v := by
  rw [storeData_append]
  exact (load_storeData h).trans (load_store_self (n := 8) v)

variable {g : Geometry} {d : Data} {prot fd : CInt}

/-- What `get_buf` stores into slot `i`. -/
def slotValue : RingBufSlot → SizeT → SizeT
  | .mpmcSlot => id
  | .mpscSlot => fun _ => slotEmpty
  | .noSlot => fun _ => 0

theorem slotInit_slots (hs : hasSlots g.kind = true) :
    slotInit g.info g.objNum (slotFlag g.kind) =
      slotStores g.info.slotOffS g.objNum (slotValue g.kind) := by
  cases hk : g.kind with
  | noSlot =>
    rw [hk] at hs
    cases hs
  | mpscSlot => rfl
  | mpmcSlot => rfl

theorem slotInit_noSlots (hs : hasSlots g.kind = false) :
    slotInit g.info g.objNum (slotFlag g.kind) = [] := by
  cases hk : g.kind with
  | noSlot => rfl
  | mpscSlot =>
    rw [hk] at hs
    cases hs
  | mpmcSlot =>
    rw [hk] at hs
    cases hs

theorem le_slotInit (h : g.Valid) {x : Store}
    (hx : x ∈ slotInit g.info g.objNum (slotFlag g.kind)) : slotOffsetAt ≤ x.area.1 := by
  cases hs : hasSlots g.kind with
  | false =>
    rw [slotInit_noSlots hs] at hx
    cases hx
  | true =>
    rw [slotInit_slots hs] at hx
    rcases List.mem_cons.1 hx with rfl | hx
    · exact Nat.le_refl _
    · obtain ⟨i, hi, rfl⟩ := List.mem_map.1 hx
      exact Nat.le_trans (by decide) (Geometry.le_slot h hs (List.mem_range.1 hi))

/-- A word of the header that no later store to the header touches. -/
theorem load_header (h : g.Valid) (pre : List Store) {post : List Store} {a : Nat} {v : SizeT}
    (hsplit : headerStores g.info g.objNum prot fd = pre ++ .size a v :: post)
    (hpost : ∀ x ∈ post, a + 8 ≤ x.area.1) (ha : a + 8 ≤ slotOffsetAt) :
    load 8 (storeData d (ringStores g.info g.objNum (slotFlag g.kind) prot fd)) a = v := by
  rw [ringStores, hsplit, List.append_assoc, List.cons_append]
  apply load_storeData_mem pre
  intro x hx
  rcases List.mem_append.1 hx with hx | hx
  · exact .inl (hpost x hx)
  · exact .inl (Nat.le_trans ha (le_slotInit h hx))

/-- The capacity and the object size that `get_buf` leaves in the header. -/
theorem load_ringStores (h : g.Valid) (d : Data) (prot fd : CInt) :
    load 8 (storeData d (ringStores g.info g.objNum (slotFlag g.kind) prot fd))
        Field.objNum.offset = g.objNum ∧
      load 8 (storeData d (ringStores g.info g.objNum (slotFlag g.kind) prot fd))
        Field.objSize.offset = g.info.alignedObjSize :=
  ⟨load_header h ((headerStores g.info g.objNum prot fd).take 3) rfl
      (by simp [Store.area, Field.offset, bufferOffsetAt]) (by decide),
    load_header h ((headerStores g.info g.objNum prot fd).take 2) rfl
      (by simp [Store.area, Field.offset, bufferOffsetAt]) (by decide)⟩

end Header

/-! ## Creating, and attaching later -/

variable {Path : Type} [DecidableEq Path]

/-- The arguments of a call of `get_buf` for a ring. -/
def Geometry.args (g : Geometry) (path : Path) (prot flag : CInt) : Args Path :=
  ⟨g.objNum, g.objSize, some path, prot, flag⟩

/-- A call of `get_buf` for a ring. -/
def Geometry.get (g : Geometry) (hugeSize : SizeT → SizeT) (path : Path) (prot flag : CInt) :
    SysProg Path (Option Addr) :=
  getBuf hugeSize g.objNum g.objSize (some path) prot flag (slotFlag g.kind)

theorem mapLen_plain {flag : CInt} (h : has mapHugetlb flag = false) (hugeSize : SizeT → SizeT)
    (len : SizeT) : mapLen hugeSize len flag = len := by
  rw [mapLen, h]
  rfl

/-- The mapping that a call with these flags makes is shared with its file. -/
def mapsShared (flag : CInt) : Bool := !has flag mapAnonymous && has (mapFlag flag) mapShared

theorem has_mapFlag_anonymous (flag : CInt) :
    has (mapFlag flag) mapAnonymous = has flag mapAnonymous := by
  have hand : (flag ||| mapShared) &&& mapAnonymous = flag &&& mapAnonymous := by
    rw [BitVec.and_or_distrib_right]
    exact BitVec.or_zero
  unfold mapFlag
  split_ifs
  · unfold has
    rw [hand]
  · rfl

theorem backing_shared_iff {flag : CInt} {f : FileId} :
    backing (mapFlag flag) f = .shared f ↔ mapsShared flag = true := by
  unfold backing mapsShared
  rw [has_mapFlag_anonymous]
  cases has flag mapAnonymous <;> cases has (mapFlag flag) mapShared <;> simp

variable {hugeSize : SizeT → SizeT} {env : Env} {g : Geometry} {path : Path} {prot flag : CInt}
  {s : Os Path} {p : Addr} {f : FileId}

theorem shm_prot (hshm : has prot mapShm = true) (hmal : has prot mapMalloc = false) :
    has prot (mapMalloc ||| mapShm) = true ∧ useMalloc prot = false ∧
      needNew prot = !has prot mapExists := by
  have hmap : has prot (mapMalloc ||| mapShm) = true := by rw [has_or, hmal, hshm]; rfl
  have huse : useMalloc prot = false := by rw [useMalloc, hmap, hmal]; rfl
  exact ⟨hmap, huse, by rw [needNew, huse]; rfl⟩

theorem data_sized (size : SizeT) : (File.empty.resize size).data = fun _ => 0 := by
  funext a
  show (if a < min (0 : SizeT).toNat size.toNat then (0 : Byte) else 0) = 0
  rw [ite_self]

omit [DecidableEq Path] in
/-- The file of a new mapping, after stores through the mapping. -/
theorem file_stores (flag : CInt) (f : FileId) {x : Os Path} {p : Addr}
    (h : x.proc.heap p = none) (xs : List Store) :
    ((x.setMap p (some (backing (mapFlag flag) f))).stores p xs).files.file f =
      if mapsShared flag then { x.files.file f with data := storeData (x.files.file f).data xs }
      else x.files.file f := by
  rcases mapped_memory (f := f) (mapFlag flag) h with ⟨hback, hshared⟩ | ⟨hback, hown⟩
  · rw [if_pos (backing_shared_iff.1 hback)]
    exact (hshared.stores xs).2
  · rw [if_neg fun hs => hback (backing_shared_iff.2 hs), hown.stores]
    rfl

/-- The file `f` has the size of a ring `g`, and the two numbers in its header are those of `g` if
the stores into the header have reached the file. -/
structure IsRing (g : Geometry) (stored : Bool) (f : File) : Prop where
  size : f.size = g.info.totalSize
  objNum : load 8 f.data Field.objNum.offset = if stored then g.objNum else 0
  objSize : load 8 f.data Field.objSize.offset = if stored then g.info.alignedObjSize else 0

/-- `get_buf` makes a ring `g` at `p`, in a new file. -/
structure Makes (hugeSize : SizeT → SizeT) (env : Env) (g : Geometry) (path : Path)
    (prot flag : CInt) (s : Os Path) (p : Addr) : Prop where
  fresh : s.files.named path = none
  shm : has prot mapShm = true
  noMalloc : has prot mapMalloc = false
  noExists : has prot mapExists = false
  noHuge : has mapHugetlb flag = false
  returns : ((g.get hugeSize path prot flag).run (exec env) s).1 = some p

/-- `get_buf` creates a ring `g` at `p`, in a new file that it shares. -/
structure Creates (hugeSize : SizeT → SizeT) (env : Env) (g : Geometry) (path : Path)
    (prot flag : CInt) (s : Os Path) (p : Addr) : Prop
    extends Makes hugeSize env g path prot flag s p where
  shared : mapsShared flag = true

/-- The file of a new ring, with what `get_buf` has stored into it. -/
theorem Makes.file (h : Makes hugeSize env g path prot flag s p) :
    ∃ f d fd, ((g.get hugeSize path prot flag).run (exec env) s).2.files.named path = some f ∧
      (((g.get hugeSize path prot flag).run (exec env) s).2.files.file f).size =
        g.info.totalSize ∧
      (((g.get hugeSize path prot flag).run (exec env) s).2.files.file f).data =
        if mapsShared flag then storeData d (ringStores g.info g.objNum (slotFlag g.kind) prot fd)
        else fun _ => 0 := by
  obtain ⟨hmap, huse, hneed⟩ := shm_prot h.shm h.noMalloc
  have hnew : needNew prot = true := by rw [hneed, h.noExists]; rfl
  have hexit : GetExit hugeSize env (g.args path prot flag) s (.ring (slotFlag g.kind)) _ _ :=
    run_construct ..
  change GetExit hugeSize env (g.args path prot flag) s (.ring (slotFlag g.kind))
    ((g.get hugeSize path prot flag).run (exec env) s).1
    ((g.get hugeSize path prot flag).run (exec env) s).2 at hexit
  rw [h.returns] at hexit
  generalize ((g.get hugeSize path prot flag).run (exec env) s).2 = s' at hexit ⊢
  cases hexit with
  | attached _ _ _ hn => cases hnew.symm.trans hn
  | @created p fd s'' hcap hna hm _ _ =>
    cases hm with
    | malloc _ hm _ => cases huse.symm.trans hm
    | shm _ _ hm =>
      change ShmExit hugeSize env g.info.totalSize flag (some path) s (needNew prot) _ _ at hm
      rw [hnew] at hm
      cases hm with
      | @mapped fd p hfd hf hm =>
        have hheap : ((s.opened (some path) fd).sized s.files.fresh g.info.totalSize
            true).proc.heap p = none := by
          simpa using (Proc.newAddr_ok (Proc.newMap_ok hm).2).1
        rw [target_of_none h.fresh, mapLen_plain h.noHuge]
        have hnamed : ((s.opened (some path) fd).sized s.files.fresh g.info.totalSize
            true).files.named path = some s.files.fresh := by
          rw [Os.sized_named, Os.opened_files, provide_named_of_none h.fresh]
        have hfile : ((s.opened (some path) fd).sized s.files.fresh g.info.totalSize
            true).files.file s.files.fresh = File.empty.resize g.info.totalSize := by
          rw [Os.file_sized, Os.opened_files, provide_fresh_of_none h.fresh]
        have hstores := file_stores flag s.files.fresh hheap
          (ringStores g.info g.objNum (slotFlag g.kind) prot fd)
        rw [hfile] at hstores
        refine ⟨s.files.fresh, (File.empty.resize g.info.totalSize).data, fd,
          (congrFun (Os.kept_stores _ p _).named path).trans hnamed, ?_⟩
        cases hshared : mapsShared flag with
        | true =>
          rw [if_pos hshared] at hstores
          exact ⟨congrArg File.size hstores, congrArg File.data hstores⟩
        | false =>
          rw [if_neg (Bool.eq_false_iff.1 hshared)] at hstores
          exact ⟨congrArg File.size hstores, (congrArg File.data hstores).trans (data_sized _)⟩

/-- The file of a new ring has the size of a ring. -/
theorem Makes.isRing (h : Makes hugeSize env g path prot flag s p) (hg : g.Valid) :
    ∃ f, ((g.get hugeSize path prot flag).run (exec env) s).2.files.named path = some f ∧
      IsRing g (mapsShared flag)
        (((g.get hugeSize path prot flag).run (exec env) s).2.files.file f) := by
  obtain ⟨f, d, fd, hname, hsize, hdata⟩ := h.file
  obtain ⟨hnum, hobj⟩ := load_ringStores hg d prot fd
  refine ⟨f, hname, hsize, ?_, ?_⟩
  · rw [hdata]
    split_ifs
    · exact hnum
    · rfl
  · rw [hdata]
    split_ifs
    · exact hobj
    · rfl

/-- Since the state `s`, the ring at `path` has been used, but neither resized nor given another
header. -/
structure Later (path : Path) (s s' : Os Path) : Prop where
  named : s'.files.named path = s.files.named path
  size : ∀ f, s.files.named path = some f → (s'.files.file f).size = (s.files.file f).size
  header : ∀ f i, s.files.named path = some f → Field.objSize.offset ≤ i → i < 192 →
    (s'.files.file f).data i = (s.files.file f).data i

omit [DecidableEq Path] in
theorem IsRing.later {s' : Os Path} {stored : Bool} (h : IsRing g stored (s.files.file f))
    (hl : Later path s s') (hname : s.files.named path = some f) :
    IsRing g stored (s'.files.file f) where
  size := (hl.size f hname).trans h.size
  objNum := (load_congr fun i h₁ h₂ => hl.header f i hname (Nat.le_trans (by decide) h₁)
    (Nat.lt_trans h₂ (by decide))).trans h.objNum
  objSize := (load_congr fun i h₁ h₂ => hl.header f i hname h₁
    (Nat.lt_trans h₂ (by decide))).trans h.objSize

omit [DecidableEq Path] in
theorem data_mapped {x : Os Path} {p : Addr} {d : Data} (hheap : x.proc.heap p = none)
    (hfile : (x.files.file f).data = d) :
    (x.setMap p (some (backing (mapFlag flag) f))).data p =
      if has flag mapAnonymous then fun _ => 0 else d := by
  unfold backing
  rw [has_mapFlag_anonymous, ← hfile]
  cases has flag mapAnonymous <;> cases has (mapFlag flag) mapShared <;>
    simp [Os.data, Os.setMap, hheap]

/-- A process calls `get_buf` to attach to `path` as to a ring `g`, and every call of the system
that this makes succeeds. -/
structure Attaches (env : Env) (g : Geometry) (prot flag : CInt) (s : Os Path) : Prop where
  shm : has prot mapShm = true
  noMalloc : has prot mapMalloc = false
  exist : has prot mapExists = true
  noHuge : has mapHugetlb flag = false
  fd : ∃ fd, s.proc.newFd env.fd = .ok fd
  fstat : env.fstat = .ok ()
  mmap : ∃ p, s.proc.newMap env.mmap g.info.totalSize = .ok p

theorem Attaches.exit (h : Attaches env g prot flag s) (hugeSize : SizeT → SizeT) (hg : g.Valid)
    (hname : s.files.named path = some f) (hsize : (s.files.file f).size ≠ 0) :
    if (s.files.file f).size = g.info.totalSize then
      ∃ p, ((g.get hugeSize path prot flag).run (exec env) s).1 = some p ∧
        ((g.get hugeSize path prot flag).run (exec env) s).2.data p =
          if has flag mapAnonymous then fun _ => 0 else (s.files.file f).data
    else ((g.get hugeSize path prot flag).run (exec env) s).1 = none ∧
      ((g.get hugeSize path prot flag).run (exec env) s).2.proc.errno =
        ringbufMappingSizeError := by
  obtain ⟨hmap, huse, hneed⟩ := shm_prot h.shm h.noMalloc
  have hnew : needNew prot = false := by rw [hneed, h.exist]; rfl
  obtain ⟨fd, hfd⟩ := h.fd
  obtain ⟨q, hq⟩ := h.mmap
  have hprov : s.provide (some path) = s := provide_of_named hname
  have htarget : s.target (some path) = f := target_of_named hname
  have hfound : s.foundSize (some path) = (s.files.file f).size := by
    rw [Os.foundSize, hprov, htarget]
  have hlen := mapLen_plain h.noHuge hugeSize g.info.totalSize
  have hexit : GetExit hugeSize env (g.args path prot flag) s (.ring (slotFlag g.kind)) _ _ :=
    run_construct ..
  change GetExit hugeSize env (g.args path prot flag) s (.ring (slotFlag g.kind))
    ((g.get hugeSize path prot flag).run (exec env) s).1
    ((g.get hugeSize path prot flag).run (exec env) s).2 at hexit
  generalize (g.get hugeSize path prot flag).run (exec env) s = x at hexit ⊢
  obtain ⟨r, s'⟩ := x
  change GetExit hugeSize env (g.args path prot flag) s (.ring (slotFlag g.kind)) r s' at hexit
  cases hexit with
  | capacity hcap => cases hg.1.symm.trans hcap
  | slotNa hc _ hna =>
    cases hc
    cases (useSlotNa_slotFlag g.kind).symm.trans hna
  | noMemory hcap hna hm =>
    cases hm with
    | noMapping h => cases hmap.symm.trans h
    | mallocFail _ h _ => cases huse.symm.trans h
    | shm _ _ hm =>
      change ShmExit hugeSize env g.info.totalSize flag (some path) s (needNew prot) _ _ at hm
      rw [hnew] at hm
      cases hm with
      | noPath _ h => cases h
      | openFail _ h => cases hfd.symm.trans h
      | truncFail _ h => cases h
      | fstatFail _ _ _ h' => cases h.fstat.symm.trans h'
      | notExists _ _ _ _ h₀ => exact absurd (hfound.symm.trans h₀) hsize
      | sizeError _ _ _ _ _ hne =>
        rw [hfound, hlen] at hne
        rw [if_neg hne]
        exact ⟨rfl, rfl⟩
      | mmapFail _ _ h =>
        rw [hlen] at h
        cases hq.symm.trans h
  | @attached p _ _ hcap hna hm hn =>
    cases hm with
    | malloc _ h _ => cases huse.symm.trans h
    | shm _ _ hm =>
      change ShmExit hugeSize env g.info.totalSize flag (some path) s (needNew prot) _ _ at hm
      rw [hnew] at hm
      cases hm with
      | mapped _ hf hm =>
        have hheap := (Proc.newAddr_ok (Proc.newMap_ok hm).2).1
        rw [if_pos ((hfound.symm.trans hf.2.2.2).trans hlen)]
        refine ⟨p, rfl, ?_⟩
        rw [htarget]
        exact data_mapped (by simpa using hheap) (by simp [Os.sized, hprov])
  | syncFail hc => cases hc
  | created _ _ _ hn => cases hnew.symm.trans hn

theorem Geometry.toNat_info (hg : g.Valid) :
    g.info.alignedObjSize.toNat = lines g.objSize.toNat := by
  have hinfo : g.info.alignedObjSize = getAlignedOffset g.objSize cacheLineSize := by
    simp only [Geometry.info, getTotalSize]
    split_ifs <;> rfl
  rw [hinfo, Geometry.toNat_alignedObjSize hg]

theorem IsRing.size_ne_zero {stored : Bool} {x : File} (h : IsRing g stored x) (hg : g.Valid) :
    x.size ≠ 0 := by
  intro hzero
  have htotal := Geometry.toNat_totalSize hg
  rw [← h.size, hzero] at htotal
  change 0 = g.total at htotal
  unfold Geometry.total at htotal
  omega

/-- The file of a ring has the size of another just when both take equally many bytes. -/
theorem IsRing.size_eq_iff {stored : Bool} {x : File} {g' : Geometry} (h : IsRing g stored x)
    (hg : g.Valid) (hg' : g'.Valid) : x.size = g'.info.totalSize ↔ g'.total = g.total := by
  rw [h.size, ← Geometry.toNat_totalSize hg, ← Geometry.toNat_totalSize hg', ← BitVec.toNat_eq]
  exact eq_comm

/-- A word of the header of the ring at `p`. -/
def Os.header (s : Os Path) (p : Addr) (x : Field) : SizeT := s.word p x.offset

/-- Objects of rings of equal size, number and slots take equally many cache lines. -/
theorem Geometry.lines_eq {g' : Geometry} (hg : g.Valid) (h : g'.total = g.total)
    (hnum : g'.objNum = g.objNum) (hslots : hasSlots g'.kind = hasSlots g.kind) :
    lines g'.objSize.toNat = lines g.objSize.toNat := by
  have hpos : 0 < g.objNum.toNat := by
    obtain ⟨k, -, hk⟩ := exists_pow_of_capacity hg.1
    have hk' : g.objNum.toNat = 2 ^ k := hk
    rw [hk']
    exact Nat.two_pow_pos k
  unfold Geometry.total at h
  rw [hnum, hslots] at h
  exact Nat.eq_of_mul_eq_mul_left hpos (by omega)

/-- After a ring `g` has been created at a new path, a call that attaches to it as to a ring `g'`
succeeds just when both take the same number of bytes. If the creator shares its mapping with the
file and the call maps the file, the header then tells the objects of `g`; if their number and the
slots agree with `g'`, the objects are large enough for `g'`. In other mappings the header is zero.
A call that does not succeed fails with `RINGBUF_MAPPING_SIZE_ERROR`. -/
theorem attach_iff {g' : Geometry} {env' : Env} {prot' flag' : CInt} {s' : Os Path}
    (hg : g.Valid) (hg' : g'.Valid) (hc : Makes hugeSize env g path prot flag s p)
    (hl : Later path ((g.get hugeSize path prot flag).run (exec env) s).2 s')
    (ha : Attaches env' g' prot' flag' s') :
    (((g'.get hugeSize path prot' flag').run (exec env') s').1.isSome ↔ g'.total = g.total) ∧
    (∀ p', ((g'.get hugeSize path prot' flag').run (exec env') s').1 = some p' →
      mapsShared flag = true → has flag' mapAnonymous = false →
      ((g'.get hugeSize path prot' flag').run (exec env') s').2.header p' .objNum = g.objNum ∧
      (((g'.get hugeSize path prot' flag').run (exec env') s').2.header p' .objSize).toNat =
        lines g.objSize.toNat ∧
      (g'.objNum = g.objNum → hasSlots g'.kind = hasSlots g.kind →
        g'.objSize ≤ ((g'.get hugeSize path prot' flag').run (exec env') s').2.header p'
          .objSize)) ∧
    (∀ p', ((g'.get hugeSize path prot' flag').run (exec env') s').1 = some p' →
      mapsShared flag = false ∨ has flag' mapAnonymous = true →
      ((g'.get hugeSize path prot' flag').run (exec env') s').2.header p' .objNum = 0 ∧
      ((g'.get hugeSize path prot' flag').run (exec env') s').2.header p' .objSize = 0) ∧
    (((g'.get hugeSize path prot' flag').run (exec env') s').1 = none →
      ((g'.get hugeSize path prot' flag').run (exec env') s').2.proc.errno =
        ringbufMappingSizeError) := by
  obtain ⟨f, hname, hring⟩ := hc.isRing hg
  have hring' := hring.later hl hname
  have hsame := hring'.size_eq_iff hg hg'
  have hexit := ha.exit hugeSize hg' (hl.named.trans hname) (hring'.size_ne_zero hg)
  generalize (g'.get hugeSize path prot' flag').run (exec env') s' = x at hexit ⊢
  obtain ⟨r, s''⟩ := x
  by_cases heq : g'.total = g.total
  · rw [if_pos (hsame.2 heq)] at hexit
    obtain ⟨q, hr, hdata⟩ := hexit
    change r = some q at hr
    change s''.data q = _ at hdata
    subst hr
    refine ⟨iff_of_true rfl heq, fun p' hp hsh hfile => ?_, fun p' hp hzero => ?_,
      fun hn => by cases hn⟩
    · obtain rfl : q = p' := Option.some.inj hp
      rw [if_neg (Bool.eq_false_iff.1 hfile)] at hdata
      have hnum : s''.header q .objNum = g.objNum := by
        rw [Os.header, Os.word, hdata, hring'.objNum, if_pos hsh]
      have hlines : (s''.header q .objSize).toNat = lines g.objSize.toNat := by
        rw [Os.header, Os.word, hdata, hring'.objSize, if_pos hsh, Geometry.toNat_info hg]
      refine ⟨hnum, hlines, fun hn hs => ?_⟩
      show g'.objSize.toNat ≤ (s''.header q .objSize).toNat
      rw [hlines, ← Geometry.lines_eq hg heq hn hs]
      unfold lines
      omega
    · obtain rfl : q = p' := Option.some.inj hp
      rw [Os.header, Os.header, Os.word, Os.word, hdata]
      split_ifs with hanon
      · exact ⟨rfl, rfl⟩
      · have hprivate := Bool.eq_false_iff.1 (hzero.resolve_right hanon)
        rw [hring'.objNum, hring'.objSize, if_neg hprivate, if_neg hprivate]
        exact ⟨rfl, rfl⟩
  · rw [if_neg fun h => heq (hsame.1 h)] at hexit
    obtain ⟨hr, he⟩ := hexit
    change r = none at hr
    subst hr
    exact ⟨iff_of_false (by simp) heq, (fun p' hp => by cases hp), (fun p' hp => by cases hp),
      fun _ => he⟩

/-- Two objects of two cache lines, and four objects of one. -/
def twoWide : Geometry := ⟨2, 128, .noSlot⟩
def fourNarrow : Geometry := ⟨4, 64, .noSlot⟩

/-- Two objects of one cache line, with slots. -/
def twoSlots (kind : RingBufSlot) : Geometry := ⟨2, 64, kind⟩

/-- A second process, after the first has made a ring. -/
def afterMaking (g : Geometry) (flag : CInt) : Os Unit where
  files := ((g.get id () (mapShm ||| mapNew) flag).run (exec .smooth) .boot).2.files
  proc := (Os.boot : Os Unit).proc

/-- What a call of the second process that attaches returns, with the capacity and the object size
that it then finds in the header. -/
def attachShows (g : Geometry) (flag : CInt) (s : Os Unit) : Option Addr × SizeT × SizeT :=
  let x := (g.get id () (mapShm ||| mapExists) flag).run (exec .smooth) s
  (x.1, x.2.header 1 .objNum, x.2.header 1 .objSize)

theorem twoWide_makes : Makes id .smooth twoWide () (mapShm ||| mapNew) 0 .boot 1 :=
  ⟨rfl, rfl, rfl, rfl, rfl, rfl⟩

theorem afterMaking_later (g : Geometry) (flag : CInt) :
    Later () ((g.get id () (mapShm ||| mapNew) flag).run (exec .smooth) .boot).2
      (afterMaking g flag) :=
  ⟨rfl, fun _ _ => rfl, fun _ _ _ _ _ => rfl⟩

theorem fourNarrow_attaches :
    Attaches .smooth fourNarrow (mapShm ||| mapExists) 0 (afterMaking twoWide 0) :=
  ⟨rfl, rfl, rfl, rfl, ⟨3, rfl⟩, rfl, ⟨1, rfl⟩⟩

/-- Attaching as to a ring of four narrow objects to one of two wide ones. -/
theorem attach_iff_fourNarrow :
    (attachShows fourNarrow 0 (afterMaking twoWide 0)).1.isSome ↔
      fourNarrow.total = twoWide.total :=
  (attach_iff (g := twoWide) ⟨rfl, by unfold SizesFit; decide⟩
    (show fourNarrow.Valid from ⟨rfl, by unfold SizesFit; decide⟩) twoWide_makes
    (afterMaking_later twoWide 0) fourNarrow_attaches).1

/-- Attaches that succeed with another capacity, with another kind and with larger objects than the
ring has; and, with the very parameters of the creator, where one of the two mappings is private or
not one of the file. -/
theorem attach_mismatch :
    attachShows fourNarrow 0 (afterMaking twoWide 0) = (some 1, 2, 128) ∧
    attachShows (twoSlots .mpmcSlot) 0 (afterMaking (twoSlots .mpscSlot) 0) = (some 1, 2, 64) ∧
    attachShows twoWide 0 (afterMaking (twoSlots .mpscSlot) 0) = (some 1, 2, 64) ∧
    attachShows twoWide 0 (afterMaking twoWide mapPrivate) = (some 1, 0, 0) ∧
    attachShows twoWide 0 (afterMaking twoWide mapAnonymous) = (some 1, 0, 0) ∧
    attachShows twoWide mapAnonymous (afterMaking twoWide 0) = (some 1, 0, 0) := by
  decide

end Setup

end RingBuf
