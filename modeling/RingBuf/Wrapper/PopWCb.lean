import RingBuf.Block.Alone
import RingBuf.Conc.Wrap
import RingBuf.Mpmc.Alone
import RingBuf.Mpmc.Fifo
import RingBuf.Mpsc.Fifo
import RingBuf.Mpsc.Status
import RingBuf.Spsc.Alone
import RingBuf.Spsc.Fifo

/-!
# `RingBuf::Pop_w_cb`

The C++ wrapper pops through a callback in one of two ways, chosen by the type of the callable: the
fast path hands the callable to the C library, the trampoline path hands it a C callback that
invokes the callable. Each way has a body of its own for every kind of ring. The two ways agree, and
leave an empty ring alone, for every kind and every state but one: on an empty Spsc ring the fast
path does not look whether `Begin_pop` returned `NULL` (`popWCb_agree_iff`).
-/

namespace RingBuf

open Conc Word LawfulWord

namespace Wrapper

/-- `TrampolineContext`: the callable, with the arguments it was given. -/
structure TrampolineContext (n : Nat) where
  cppCallback : Callback n

/-- The trampoline invokes the callable of its context. -/
def trampoline {n : Nat} (ctx : TrampolineContext n) : Callback n where
  onNull := ctx.cppCallback.onNull
  onObj := ctx.cppCallback.onObj

/-! ## The rings that never wait -/

/-- The tags of `RingBufType`, less `Block`. -/
inductive RingType
  | spsc
  | mpsc
  | mpmc
  deriving DecidableEq

/-- The fast path. -/
def popWCbFast (r : Ring SizeT) (callback : Callback r.objSize) : RingType → RingProg SizeT Int
  | .mpsc => Mpsc.popWCbMpscRingBuf r callback
  | .mpmc => Mpmc.popWCbMpmcRingBuf r callback
  | .spsc => do
    let p ← Spsc.beginPopSpscRingBuf r
    let rc ← callCb callback p
    Spsc.endPopSpscRingBuf
    pure rc

/-- The trampoline path. -/
def popWCbTrampoline (r : Ring SizeT) (callback : Callback r.objSize) :
    RingType → RingProg SizeT Int
  | .mpsc => Mpsc.popWCbMpscRingBuf r (trampoline ⟨callback⟩)
  | .mpmc => Mpmc.popWCbMpmcRingBuf r (trampoline ⟨callback⟩)
  | .spsc => do
    let p ← Spsc.beginPopSpscRingBuf r
    match p with
    | none => pure ringbufEmpty
    | some a => do
      let rc ← callCb (trampoline ⟨callback⟩) (some a)
      Spsc.endPopSpscRingBuf
      pure rc

/-- What comes of a path: the objects the callback was invoked on (`none` for `NULL`), the
returned value, and the ring. -/
structure Outcome where
  calls : List (Option (List Byte))
  rc : Int
  head : SizeT
  tail : SizeT
  slot : Nat → SizeT
  buffer : Nat → Byte

/-- The object that an operation invokes the callback on. -/
def invocation (r : Ring SizeT) (buffer : Nat → Byte) :
    ((o : Op SizeT) × o.Res) → Option (Option (List Byte))
  | ⟨.callback p, _⟩ => some (p.map fun a => (List.range' a r.objSize).map buffer)
  | _ => none

variable {Tid : Type} [DecidableEq Tid]

/-- What comes of a path that thread `t` runs alone. -/
def outcome (r : Ring SizeT) (t : Tid) (p : RingProg SizeT Int) (m : Mem SizeT Tid) : Outcome where
  calls := (p.log (exec t) m).filterMap (invocation r m.buffer)
  rc := (p.run (exec t) m).1
  head := (p.run (exec t) m).2.head
  tail := (p.run (exec t) m).2.tail
  slot := (p.run (exec t) m).2.slot
  buffer := (p.run (exec t) m).2.buffer

/-- The states in which thread `t` may call `Pop_w_cb`, after any pushes and pops: the number is
that of the pushes. -/
inductive Reachable (r : Ring SizeT) (t : Tid) : RingType → Nat → Mem SizeT Tid → Prop
  | spsc {producer : Tid} {m₀ tr cf} : m₀.localTail producer = 0 → m₀.localHead t = 0 →
      Run (Spsc.sys r producer t) (.start (getBuf r .noSlot m₀)) tr cf → cf.thread t = .idle →
      Reachable r t .spsc (Spsc.pushClaims tr).length cf.shared
  | mpsc {m₀ tr cf} : Run (Mpsc.sys r Tid) (.start (getBuf r .mpscSlot m₀)) tr cf →
      cf.thread t = .idle → Reachable r t .mpsc (Mpsc.pushClaims tr).length cf.shared
  | mpmc {m₀ tr cf} : Run (Mpmc.sys r Tid) (.start (getBuf r .mpmcSlot m₀)) tr cf →
      cf.thread t = .idle → Reachable r t .mpmc (Mpmc.pushClaims tr).length cf.shared

/-- A path leaves an empty ring alone: it invokes no callback and advances no tail. -/
def LeavesEmpty (m : Mem SizeT Tid) (out : Outcome) : Prop :=
  m.head = m.tail → out.calls = [] ∧ out.tail = m.tail

/-- The two paths come to the same, and neither touches an empty ring. -/
structure PathsAgree (r : Ring SizeT) (t : Tid) (kind : RingType) (callback : Callback r.objSize)
    (m : Mem SizeT Tid) : Prop where
  same : outcome r t (popWCbFast r callback kind) m =
    outcome r t (popWCbTrampoline r callback kind) m
  fast_empty : LeavesEmpty m (outcome r t (popWCbFast r callback kind) m)
  trampoline_empty : LeavesEmpty m (outcome r t (popWCbTrampoline r callback kind) m)

/-! ## The blocking ring -/

/-- `(int) rc` -/
def toInt (rc : Int) : Int := (BitVec.ofInt 32 rc).toInt

/-- A call on the wrapper of a blocking ring with objects of `n` bytes. -/
inductive Call (n : Nat)
  | push (args : List Byte)
  | popWCb (callback : Callback n) (fast : Bool)

/-- What a wrapper call on a blocking ring returns, with the copies it invoked the callback on. -/
structure Out where
  rc : Int
  calls : List (List Byte)
  deriving DecidableEq

/-- The callback on a copy of an object. -/
def onCopy {n : Nat} (callback : Callback n) (obj : List Byte) : Int :=
  (callback.onObj.run (fun j obj => (obj.getD j 0, obj)) obj).1

/-- The fast path after `Pop_BlockRingBuf` has returned `out`. -/
def afterPopFast {n : Nat} (callback : Callback n) (out : Ret) : Out :=
  let rc := toInt out.rc
  if rc < 0 then ⟨rc, []⟩
  else ⟨onCopy callback out.buf, [out.buf]⟩

/-- The trampoline path after `Pop_BlockRingBuf` has returned `out`. -/
def afterPopTrampoline {n : Nat} (callback : Callback n) (out : Ret) : Out :=
  let rc := toInt out.rc
  if rc < 0 then ⟨rc, []⟩
  else ⟨onCopy (trampoline ⟨callback⟩) out.buf, [out.buf]⟩

/-- The call of the C library that a wrapper call makes. -/
def Call.inner {n : Nat} : Call n → Block.Call
  | .push args => .push args
  | .popWCb _ _ => .pop n

/-- What a wrapper call does after it. -/
def Call.post {n : Nat} : Call n → Ret → Out
  | .push _, out => ⟨out.rc, []⟩
  | .popWCb callback true, out => afterPopFast callback out
  | .popWCb callback false, out => afterPopTrampoline callback out

/-- Any number of threads that use a blocking ring through the wrapper. -/
abbrev blockSys (r : Ring SizeT) (n : Nat) (Tid : Type) [DecidableEq Tid] :
    Sys Block.Op Block.Op.Res (Call n × Block.Call) Tid (Call n) Out (Block.BMem Tid) :=
  (Block.sys r Tid).wrap Call.inner Call.post

/-! ## Where the two paths agree -/

variable {r : Ring SizeT} {t : Tid} {m : Mem SizeT Tid} {kind : RingType} {pushes : Nat}
  {callback : Callback r.objSize}

theorem outcome_bind_congr {α : Type} {p : RingProg SizeT α} {f g : α → RingProg SizeT Int}
    (h : f (p.run (exec t) m).1 = g (p.run (exec t) m).1) :
    outcome r t (p >>= f) m = outcome r t (p >>= g) m := by
  simp only [outcome, Prog.log_bind, Prog.run_bind, h]

/-- The consumer's cache does not hide that the ring is empty. -/
theorem Reachable.sound (h : Reachable r t .spsc pushes m) (hempty : m.head = m.tail) :
    m.localHead t = m.tail := by
  cases h with
  | @spsc producer m₀ tr cf hp hc hrun _ =>
    obtain ⟨R, -, -, -, hi⟩ := Inductive.run (Spsc.follows r producer t)
      (Spsc.inv_inductive (Spsc.start_getBuf hp hc)) hrun
    by_contra hne
    obtain ⟨K, -, hlt, hK⟩ := hi.some hne
    have hroom := hi.room
    rw [hi.head, hi.tail, Ring.empty_iff r (by omega) (by omega)] at hempty
    omega

/-- `Begin_pop` returns `NULL` exactly if the ring is empty, and moves no counter. -/
theorem run_beginPop (hs : m.head = m.tail → m.localHead t = m.tail) :
    ((Spsc.beginPopSpscRingBuf r).run (exec t) m).1 =
      (if m.head = m.tail then none else some (Spsc.slotAddr r m.tail)) ∧
    ((Spsc.beginPopSpscRingBuf r).run (exec t) m).2.tail = m.tail := by
  obtain ⟨lh, -, hrun⟩ := Spsc.run_popEmpty hs
  show ((popEmpty m.tail >>= _).run (exec t) m).1 = _ ∧
    ((popEmpty m.tail >>= _).run (exec t) m).2.tail = _
  rw [Prog.run_bind, hrun]
  by_cases hempty : m.head = m.tail
  · simp [hempty]
  · simp [hempty, Spsc.slotAddr, exec]

theorem tail_fast (hs : m.head = m.tail → m.localHead t = m.tail) (hempty : m.head = m.tail) :
    (outcome r t (popWCbFast r callback .spsc) m).tail = m.tail + 1 := by
  obtain ⟨hp, htail⟩ := run_beginPop (r := r) hs
  rw [if_pos hempty] at hp
  show ((Spsc.beginPopSpscRingBuf r >>= _ : RingProg SizeT Int).run (exec t) m).2.tail = _
  rw [Prog.run_bind, hp]
  show ((Spsc.beginPopSpscRingBuf r).run (exec t) m).2.tail + 1 = _
  rw [htail]

theorem tail_trampoline (hs : m.head = m.tail → m.localHead t = m.tail)
    (hempty : m.head = m.tail) :
    (outcome r t (popWCbTrampoline r callback .spsc) m).tail = m.tail := by
  obtain ⟨hp, htail⟩ := run_beginPop (r := r) hs
  rw [if_pos hempty] at hp
  show ((Spsc.beginPopSpscRingBuf r >>= _ : RingProg SizeT Int).run (exec t) m).2.tail = _
  rw [Prog.run_bind, hp]
  exact htail

theorem spsc_agree (hs : m.head = m.tail → m.localHead t = m.tail) (hsome : m.head ≠ m.tail) :
    outcome r t (popWCbFast r callback .spsc) m =
      outcome r t (popWCbTrampoline r callback .spsc) m := by
  obtain ⟨hp, -⟩ := run_beginPop (r := r) hs
  rw [if_neg hsome] at hp
  refine outcome_bind_congr ?_
  rw [hp]
  rfl

theorem outcome_eq_iff (h : Reachable r t kind pushes m) :
    outcome r t (popWCbFast r callback kind) m = outcome r t (popWCbTrampoline r callback kind) m ↔
      (kind = .spsc → m.head ≠ m.tail) := by
  cases kind with
  | spsc =>
    have hs := h.sound
    constructor
    · intro heq _ hempty
      have htail := congrArg Outcome.tail heq
      rw [tail_fast hs hempty, tail_trampoline hs hempty] at htail
      exact Spsc.add_one_ne _ htail
    · intro hsome
      exact spsc_agree hs (hsome rfl)
  | mpsc => exact ⟨fun _ => nofun, fun _ => rfl⟩
  | mpmc => exact ⟨fun _ => nofun, fun _ => rfl⟩

/-! ## Empty rings -/

/-- A path that hands nothing out invokes no callback. -/
theorem calls_of_delivered {p : RingProg SizeT Int} (h : Mpsc.delivered t m p = []) :
    (outcome r t p m).calls = [] := by
  refine List.filterMap_eq_nil_iff.2 fun x hx => ?_
  have hnot := List.filter_eq_nil_iff.1 h x hx
  obtain ⟨o, x⟩ := x
  cases o with
  | callback p => exact absurd rfl hnot
  | _ => rfl

omit [DecidableEq Tid] in
/-- The slot of the tail of an empty Mpsc ring is not marked valid, whoever is in a call. -/
theorem tailStat_of_empty {tr : List (Mpsc.Ev Tid r.objSize)} {R : Mpsc.MRoles Tid r.objSize}
    (hs : Mpsc.SlotInv r tr m R) (hempty : m.head = m.tail) :
    Mpsc.tailStat r m &&& slotEmpty ≠ 0 := by
  have hcap := r.two_le_cap
  have hfree : Mpsc.tailStat r m = slotEmpty := by
    have hinvalid := hs.inv.free (toNat m.tail) (congrArg toNat hempty).le
      (Nat.lt_add_of_pos_right (by omega))
    rw [Mpsc.tailStat, Mpsc.tailSlot, r.toNat_and_mask]
    exact (hs.word _ (r.index_lt _)).resolve_right (of_decide_eq_false hinvalid)
  rw [hfree]
  decide

theorem leavesEmpty_mpsc (cb : Callback r.objSize)
    (hstat : m.head = m.tail → Mpsc.tailStat r m &&& slotEmpty ≠ 0) :
    LeavesEmpty m (outcome r t (Mpsc.popWCbMpscRingBuf r cb) m) := by
  intro hempty
  have hrun := Mpsc.run_popWCb (t := t) (m := m) cb
  by_cases htest : Mpsc.testedHead t m = m.tail
  · rw [if_pos htest] at hrun
    refine ⟨calls_of_delivered ?_, congrArg (·.2.tail) hrun⟩
    show Mpsc.delivered t m (popEmpty m.tail >>= _) = []
    rw [Mpsc.delivered_bind, Mpsc.delivered_popEmpty, Mpsc.run_popEmpty,
      decide_eq_true htest]
    rfl
  · rw [if_neg htest, if_pos (hstat hempty)] at hrun
    refine ⟨calls_of_delivered ?_, congrArg (·.2.tail) hrun⟩
    rw [Mpsc.delivered_popWCb cb htest, if_pos (hstat hempty)]

omit [DecidableEq Tid] in
/-- The slot of the tail of an empty Mpmc ring is behind what a pop waits for, whoever is in a
call: it is free, or the pop one lap before still has it. -/
theorem dif_tail_of_empty {tr : List (Mpmc.Ev SizeT Tid r.objSize)}
    {R : Mpmc.MRoles Tid SizeT r.objSize} (hs : Mpmc.SlotInv r tr m R)
    (hb : Mpmc.NoOverflow r tr) (hempty : m.head = m.tail) :
    dif (Mpmc.tailSeq r m) (m.tail + 1) < 0 := by
  have hcap := r.two_le_cap
  have hle := r.cap_le
  have hbig : Fits SizeT (toNat m.head + r.cap) := by
    rw [← hs.head.length]
    exact hb
  have hhead : toNat m.head = toNat m.tail := congrArg toNat hempty
  have hsucc : toNat (m.tail + 1) = toNat m.tail + 1 :=
    Mpmc.toNat_succ hhead.ge (by omega) hbig
  rw [Mpmc.tailSeq, r.toNat_and_mask]
  rcases hs.inv.free (toNat m.tail) hhead.le (Nat.lt_add_of_pos_right (by omega)) with
    hfree | ⟨u, q, hu, hq⟩
  · have hseq : toNat (m.slot (r.index (toNat m.tail))) = toNat m.tail := hfree
    rw [dif_eq_sub (by omega) (by omega), hseq, hsucc]
    omega
  · -- The slot of the tail is that of position `q`, one lap before.
    have hindex : r.index (toNat m.tail) = r.index q := mod_eq_of_add hq
    have hseq : toNat (m.slot (r.index q)) = q + 1 := (hs.inv.drain u q hu).2.2
    rw [hindex, dif_eq_sub (by omega) (by omega), hseq, hsucc]
    omega

theorem leavesEmpty_mpmc (cb : Callback r.objSize)
    (hdif : m.head = m.tail → dif (Mpmc.tailSeq r m) (m.tail + 1) < 0) :
    LeavesEmpty m (outcome r t (Mpmc.popWCbMpmcRingBuf r cb) m) := by
  intro hempty
  have hneg := hdif hempty
  have hpos : ¬ dif (Mpmc.tailSeq r m) (m.tail + 1) > 0 := hneg.not_gt
  have hrun := Mpmc.run_popWCb (t := t) (m := m) cb
  rw [if_neg hpos, if_pos hneg] at hrun
  refine ⟨calls_of_delivered ?_, congrArg (·.2.tail) hrun⟩
  show Mpsc.delivered t m (ite (dif (Mpmc.tailSeq r m) (m.tail + 1) > 0) _ _) = []
  rw [if_neg hpos]
  show Mpsc.delivered t m (ite (dif (Mpmc.tailSeq r m) (m.tail + 1) < 0) _ _) = []
  rw [if_pos hneg]
  rfl

omit [DecidableEq Tid] in
theorem leavesEmpty_of_ne (h : m.head ≠ m.tail) (out : Outcome) : LeavesEmpty m out :=
  fun hempty => absurd hempty h

theorem agree_iff (h : Reachable r t kind pushes m) (hlt : kind ≠ .spsc → pushes < 2 ^ 63) :
    PathsAgree r t kind callback m ↔ (kind = .spsc → m.head ≠ m.tail) := by
  refine ⟨fun hagree => (outcome_eq_iff h).1 hagree.same, fun hsome => ?_⟩
  have hsame : outcome r t (popWCbFast r callback kind) m =
      outcome r t (popWCbTrampoline r callback kind) m := (outcome_eq_iff h).2 hsome
  cases h with
  | spsc => exact ⟨hsame, leavesEmpty_of_ne (hsome rfl) _, leavesEmpty_of_ne (hsome rfl) _⟩
  | mpsc hrun _ =>
    obtain ⟨R, -, -, hs⟩ := Inductive.run (Mpsc.follows r Tid)
      (Mpsc.known_inductive.and (Mpsc.slotInv_inductive (Mpsc.fresh_getBuf _))) hrun
    have hstat := tailStat_of_empty (hs.2 (hlt nofun))
    exact ⟨hsame, leavesEmpty_mpsc _ hstat, leavesEmpty_mpsc _ hstat⟩
  | mpmc hrun _ =>
    obtain ⟨R, -, -, hs⟩ := Inductive.run (Mpmc.follows r Tid)
      (Mpmc.slotInv_inductive (Mpmc.fresh_getBuf _)) hrun
    have hb := Mpmc.noOverflow_of_lt (hlt nofun)
    have hdif := dif_tail_of_empty (hs hb) hb
    exact ⟨hsame, leavesEmpty_mpmc _ hdif, leavesEmpty_mpmc _ hdif⟩

/-- **The two paths agree** on the rings that never wait exactly when the ring is not an empty Spsc
ring, and on blocking rings always; then neither of them touches an empty ring. -/
theorem popWCb_agree_iff {Tid : Type} [DecidableEq Tid] {r : Ring SizeT} :
    (∀ {kind : RingType} {pushes : Nat} {t : Tid} {m : Mem SizeT Tid}
      (callback : Callback r.objSize), Reachable r t kind pushes m →
        (outcome r t (popWCbFast r callback kind) m =
          outcome r t (popWCbTrampoline r callback kind) m ↔ (kind = .spsc → m.head ≠ m.tail)) ∧
        ((kind ≠ .spsc → pushes < 2 ^ 63) →
          (PathsAgree r t kind callback m ↔ (kind = .spsc → m.head ≠ m.tail)))) ∧
    ∀ {n : Nat} {t : Tid} {m m' : Block.BMem Tid} {ops : List ((o : Block.Op) × o.Res)} {out : Out}
      (callback : Callback n),
      Alone (blockSys r n Tid) t ((blockSys r n Tid).body (.popWCb callback true)) m ops out m' ↔
        Alone (blockSys r n Tid) t ((blockSys r n Tid).body (.popWCb callback false)) m ops out
          m' := by
  refine ⟨fun _ h => ⟨outcome_eq_iff h, agree_iff h⟩, fun {n t m m' ops out} callback => ?_⟩
  have hpop : ∀ fast, Alone (blockSys r n Tid) t
      ((blockSys r n Tid).body (.popWCb callback fast)) m ops out m' ↔
      ∃ v, Alone (Block.sys r Tid) t (Block.body r (.pop n)) m ops v m' ∧
        out = (Call.popWCb callback fast).post v := fun _ => alone_wrap_iff
  exact (hpop true).trans (hpop false).symm

/-- A push of one byte. -/
def pushOne : List (Bool × Spsc.Call tinyRing.objSize) := [(true, .push [7])]

/-- The ring after it. -/
def pushedRing : Mem SizeT Bool :=
  seqState exec (Spsc.body tinyRing) pushOne (getBuf tinyRing .noSlot .zero)

/-- A callback that answers `0`. -/
def zeroCallback : Callback tinyRing.objSize := ⟨0, .ret 0⟩

theorem popWCb_agree_iff_pushed :
    PathsAgree tinyRing false .spsc zeroCallback pushedRing ∧
    PathsAgree tinyRing false .mpmc zeroCallback
      (getBuf tinyRing .mpmcSlot (Mem.zero : Mem SizeT Bool)) :=
  ⟨((popWCb_agree_iff.1 zeroCallback (.spsc (rfl : (Mem.zero : Mem SizeT Bool).localTail true = 0)
      rfl (Run.seq pushOne (by decide) 0 _) rfl)).2 fun h => absurd rfl h).2 fun _ => by decide,
    ((popWCb_agree_iff.1 zeroCallback (.mpmc (.refl : Run (Mpmc.sys tinyRing Bool)
      (.start (getBuf tinyRing .mpmcSlot .zero)) [] _) rfl)).2 fun _ => by decide).2 nofun⟩

/-- On a new ring the fast path invokes the callback on `NULL` and moves the tail past the head. -/
theorem popWCb_disagree :
    Reachable tinyRing false .spsc 0 (getBuf tinyRing .noSlot .zero) ∧
    outcome tinyRing false (popWCbFast tinyRing zeroCallback .spsc)
      (getBuf tinyRing .noSlot .zero) ≠
        outcome tinyRing false (popWCbTrampoline tinyRing zeroCallback .spsc)
          (getBuf tinyRing .noSlot .zero) ∧
    (outcome tinyRing false (popWCbFast tinyRing zeroCallback .spsc)
      (getBuf tinyRing .noSlot .zero)).calls = [none] ∧
    (outcome tinyRing false (popWCbFast tinyRing zeroCallback .spsc)
      (getBuf tinyRing .noSlot .zero)).tail = 1 ∧
    (outcome tinyRing false (popWCbTrampoline tinyRing zeroCallback .spsc)
      (getBuf tinyRing .noSlot .zero)).calls = [] ∧
    (outcome tinyRing false (popWCbTrampoline tinyRing zeroCallback .spsc)
      (getBuf tinyRing .noSlot .zero)).tail = 0 :=
  ⟨.spsc (rfl : (Mem.zero : Mem SizeT Bool).localTail true = 0) rfl .refl rfl,
    (by intro h; cases congrArg Outcome.calls h), rfl, rfl, rfl, rfl⟩

end Wrapper

end RingBuf
