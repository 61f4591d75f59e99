import RingBuf.Spsc.Code

/-!
# One Spsc operation that nothing interrupts

The operations of a client on an Spsc ring, with `Begin_` and `End_` apart, and what each of them
does when it runs alone, as a function of the memory it finds.

* `cmd_run`: an operation whose test the cache does not mislead (`Sound`) does what the same
  operation does on a ring without caches (`cmdSpec`).
* `push_room`, `beginPush_room`, `pop_some`, `beginPop_some`: one that the cache misleads trusts it.
-/

namespace RingBuf

open Conc Word LawfulWord

namespace Spsc

/-! ## One operation -/

/-- An operation of a client on a ring with objects of `n` bytes. After `Begin_push` the client
writes in place, after `Begin_pop` it reads in place, unless it was given `NULL`. -/
inductive Cmd (n : Nat)
  | push (args : List Byte)
  | beginPush (ws : List (Fin n × Byte))
  | endPush
  | pop (size : Nat)
  | beginPop (read : Prog (Fin n) (fun _ => Byte) Empty (List Byte))
  | endPop

/-- What the client gets: a return code with the bytes left in its buffer, or the pointer of a
`Begin_` call with the bytes read there. -/
inductive Result
  | code (rc : Int) (buf : List Byte)
  | pointer (p : Option Nat) (read : List Byte)
  | none
  deriving DecidableEq

/-- Whether the client holds the slot of a `Begin_push` or `Begin_pop` that it has not ended. -/
structure Held where
  pushing : Bool
  popping : Bool
  deriving DecidableEq

/-- An operation by the producer. -/
def Cmd.pushes {n : Nat} : Cmd n → Bool
  | .push _ | .beginPush _ | .endPush => true
  | _ => false

/-- The program of an operation. `End_push` and `End_pop` are called only for a slot that is held;
a push or pop by copy gives up the slot. -/
def cmd (r : Ring SizeT) (h : Held) : Cmd r.objSize → RingProg SizeT (Result × Held)
  | .push args => do
    let rc ← pushSpscRingBuf r args
    pure (.code rc [], { h with pushing := false })
  | .beginPush ws => do
    let p ← beginPushSpscRingBuf r
    match p with
    | .none => pure (.pointer .none [], { h with pushing := false })
    | some a => do
      writeObj a ws
      pure (.pointer (some a) [], { h with pushing := true })
  | .endPush =>
    if h.pushing then do
      endPushSpscRingBuf
      pure (.none, { h with pushing := false })
    else pure (.none, h)
  | .pop size => do
    let out ← popSpscRingBuf r size
    pure (.code out.1 out.2, { h with popping := false })
  | .beginPop read => do
    let p ← beginPopSpscRingBuf r
    match p with
    | .none => pure (.pointer .none [], { h with popping := false })
    | some a => do
      let bs ← readObj a read
      pure (.pointer (some a) bs, { h with popping := true })
  | .endPop =>
    if h.popping then do
      endPopSpscRingBuf
      pure (.none, { h with popping := false })
    else pure (.none, h)

variable {Tid : Type} [DecidableEq Tid]

/-- The caches of thread `t` do not hide that the ring is full, from a push, or empty, from a
pop. -/
def Sound (r : Ring SizeT) (t : Tid) (m : Mem SizeT Tid) : Cmd r.objSize → Prop
  | .push args => args.length ≤ r.objSize →
    m.head - m.tail ≥ r.objNum → m.head - m.localTail t ≥ r.objNum
  | .beginPush _ => m.head - m.tail ≥ r.objNum → m.head - m.localTail t ≥ r.objNum
  | .pop size => size ≤ r.objSize → m.head = m.tail → m.localHead t = m.tail
  | .beginPop _ => m.head = m.tail → m.localHead t = m.tail
  | _ => True

variable {r : Ring SizeT} {t : Tid} {m : Mem SizeT Tid} {h : Held}

/-- The slot of the counter value `w`. -/
def slotAddr (r : Ring SizeT) (w : SizeT) : Nat := r.addr (w &&& r.mask)

/-- What the client's writes `ws` make of the object at `a`. -/
def placeBytes {n : Nat} (buffer : Nat → Byte) (a : Nat) (ws : List (Fin n × Byte)) : Nat → Byte :=
  ws.foldl (fun buffer w => Function.update buffer (a + w.1) w.2) buffer

theorem run_writeObj {n : Nat} (a : Nat) (ws : List (Fin n × Byte)) :
    (writeObj a ws).run (exec t) m = ((), { m with buffer := placeBytes m.buffer a ws }) := by
  induction ws generalizing m with
  | nil => rfl
  | cons w ws ih =>
    obtain ⟨j, b⟩ := w
    exact ih

/-- `local_tail` after the full test: kept or refreshed, and it shows the room there is. -/
def TailCache (r : Ring SizeT) (t : Tid) (m : Mem SizeT Tid) (lt : Tid → SizeT) : Prop :=
  (lt = m.localTail ∨ lt = Function.update m.localTail t m.tail) ∧
    (¬ m.head - m.tail ≥ r.objNum → ¬ m.head - lt t ≥ r.objNum)

/-- `local_head` after the empty test: kept or refreshed, and it shows the element there is. -/
def HeadCache (t : Tid) (m : Mem SizeT Tid) (lh : Tid → SizeT) : Prop :=
  (lh = m.localHead ∨ lh = Function.update m.localHead t m.head) ∧
    (m.head ≠ m.tail → lh t ≠ m.tail)

theorem run_pushFull_room (hc : ¬ m.head - m.localTail t ≥ r.objNum) :
    (pushFull r m.head).run (exec t) m = (false, m) := by
  show (ite (m.head - m.localTail t ≥ r.objNum) _ _ : RingProg SizeT Bool).run (exec t) m = _
  rw [if_neg hc]
  rfl

theorem run_popEmpty_some (hc : m.localHead t ≠ m.tail) :
    (popEmpty m.tail).run (exec t) m = (false, m) := by
  show (ite (m.localHead t = m.tail) _ _ : RingProg SizeT Bool).run (exec t) m = _
  rw [if_neg hc]
  rfl

/-- The full test says full exactly if the ring is, when the cache does not hide it. -/
theorem run_pushFull (hs : m.head - m.tail ≥ r.objNum → m.head - m.localTail t ≥ r.objNum) :
    ∃ lt, TailCache r t m lt ∧ (pushFull r m.head).run (exec t) m =
      (decide (m.head - m.tail ≥ r.objNum), { m with localTail := lt }) := by
  by_cases hc : m.head - m.localTail t ≥ r.objNum
  · refine ⟨Function.update m.localTail t m.tail, ⟨.inr rfl, ?_⟩, ?_⟩
    · rw [Function.update_self]
      exact fun h => h
    · show (ite (m.head - m.localTail t ≥ r.objNum) _ _ : RingProg SizeT Bool).run (exec t) m = _
      rw [if_pos hc]
      rfl
  · have hfree : ¬ m.head - m.tail ≥ r.objNum := fun h => hc (hs h)
    refine ⟨m.localTail, ⟨.inl rfl, fun _ => hc⟩, ?_⟩
    rw [run_pushFull_room hc, decide_eq_false hfree]

/-- The empty test says empty exactly if the ring is, when the cache does not hide it. -/
theorem run_popEmpty (hs : m.head = m.tail → m.localHead t = m.tail) :
    ∃ lh, HeadCache t m lh ∧ (popEmpty m.tail).run (exec t) m =
      (decide (m.head = m.tail), { m with localHead := lh }) := by
  by_cases hc : m.localHead t = m.tail
  · refine ⟨Function.update m.localHead t m.head, ⟨.inr rfl, ?_⟩, ?_⟩
    · rw [Function.update_self]
      exact fun h => h
    · show (ite (m.localHead t = m.tail) _ _ : RingProg SizeT Bool).run (exec t) m = _
      rw [if_pos hc]
      rfl
  · have hsome : m.head ≠ m.tail := fun h => hc (hs h)
    refine ⟨m.localHead, ⟨.inl rfl, fun _ => hc⟩, ?_⟩
    rw [run_popEmpty_some hc, decide_eq_false hsome]

theorem run_push {args : List Byte} (hlen : args.length ≤ r.objSize)
    (hs : m.head - m.tail ≥ r.objNum → m.head - m.localTail t ≥ r.objNum) :
    ∃ lt, TailCache r t m lt ∧ (pushSpscRingBuf r args).run (exec t) m =
      if m.head - m.tail ≥ r.objNum then (ringbufFull, { m with localTail := lt })
      else (toSsize m.head, { m with
        head := m.head + 1
        buffer := putBytes m.buffer (slotAddr r m.head) args
        localTail := lt }) := by
  obtain ⟨lt, hcache, hrun⟩ := run_pushFull hs
  refine ⟨lt, hcache, ?_⟩
  unfold pushSpscRingBuf
  rw [if_neg (Nat.not_lt.2 hlen)]
  show (pushFull r m.head >>= _).run (exec t) m = _
  rw [Prog.run_bind, hrun]
  by_cases hfull : m.head - m.tail ≥ r.objNum
  · simp [hfull]
  · simp only [hfull, decide_false, Bool.false_eq_true, if_false, Prog.run_bind, run_memcpyTo]
    rfl

theorem run_beginPush (ws : List (Fin r.objSize × Byte))
    (hs : m.head - m.tail ≥ r.objNum → m.head - m.localTail t ≥ r.objNum) :
    ∃ lt, TailCache r t m lt ∧ (cmd r h (.beginPush ws)).run (exec t) m =
      if m.head - m.tail ≥ r.objNum then
        ((.pointer none [], { h with pushing := false }), { m with localTail := lt })
      else ((.pointer (some (slotAddr r m.head)) [], { h with pushing := true }), { m with
        buffer := placeBytes m.buffer (slotAddr r m.head) ws
        localTail := lt }) := by
  obtain ⟨lt, hcache, hrun⟩ := run_pushFull hs
  refine ⟨lt, hcache, ?_⟩
  show ((pushFull r m.head >>= _) >>= _).run (exec t) m = _
  rw [Prog.bind_assoc, Prog.run_bind, hrun]
  by_cases hfull : m.head - m.tail ≥ r.objNum
  · simp [hfull]
  · simp only [hfull, decide_false, Bool.false_eq_true, if_false]
    show (writeObj _ ws >>= _).run (exec t) _ = _
    rw [Prog.run_bind, run_writeObj]
    rfl

theorem run_pop {size : Nat} (hlen : size ≤ r.objSize)
    (hs : m.head = m.tail → m.localHead t = m.tail) :
    ∃ lh, HeadCache t m lh ∧ (popSpscRingBuf r size).run (exec t) m =
      if m.head = m.tail then ((ringbufEmpty, []), { m with localHead := lh })
      else ((toSsize m.tail, (List.range' (slotAddr r m.tail) size).map m.buffer), { m with
        tail := m.tail + 1
        localHead := lh }) := by
  obtain ⟨lh, hcache, hrun⟩ := run_popEmpty hs
  refine ⟨lh, hcache, ?_⟩
  unfold popSpscRingBuf
  rw [if_neg (Nat.not_lt.2 hlen)]
  show (popEmpty m.tail >>= _).run (exec t) m = _
  rw [Prog.run_bind, hrun]
  by_cases hempty : m.head = m.tail
  · simp [hempty]
  · simp only [hempty, decide_false, Bool.false_eq_true, if_false, Prog.run_bind, run_memcpyFrom]
    rfl

theorem run_beginPop (read : Prog (Fin r.objSize) (fun _ => Byte) Empty (List Byte))
    (hs : m.head = m.tail → m.localHead t = m.tail) :
    ∃ lh, HeadCache t m lh ∧ (cmd r h (.beginPop read)).run (exec t) m =
      if m.head = m.tail then
        ((.pointer none [], { h with popping := false }), { m with localHead := lh })
      else ((.pointer (some (slotAddr r m.tail))
          (read.run (fun j buffer => (buffer (slotAddr r m.tail + j), buffer)) m.buffer).1,
        { h with popping := true }), { m with localHead := lh }) := by
  obtain ⟨lh, hcache, hrun⟩ := run_popEmpty hs
  refine ⟨lh, hcache, ?_⟩
  show ((popEmpty m.tail >>= _) >>= _).run (exec t) m = _
  rw [Prog.bind_assoc, Prog.run_bind, hrun]
  by_cases hempty : m.head = m.tail
  · simp [hempty]
  · simp only [hempty, decide_false, Bool.false_eq_true, if_false]
    show (readObj _ read >>= _).run (exec t) _ = _
    rw [Prog.run_bind, run_readObj]
    rfl

/-! ## Operations without caches -/

/-- What all threads see of a ring. -/
structure Core where
  head : SizeT
  tail : SizeT
  buffer : Nat → Byte

/-- The ring without the private caches. -/
def core (m : Mem SizeT Tid) : Core := ⟨m.head, m.tail, m.buffer⟩

/-- The operations on a ring without caches, which tests its counters. -/
def cmdSpec (r : Ring SizeT) (h : Held) (m : Core) : Cmd r.objSize → (Result × Held) × Core
  | .push args =>
    if args.length > r.objSize then
      ((.code ringbufPushSizeTooLarge [], { h with pushing := false }), m)
    else if m.head - m.tail ≥ r.objNum then ((.code ringbufFull [], { h with pushing := false }), m)
    else ((.code (toSsize m.head) [], { h with pushing := false }), { m with
      head := m.head + 1
      buffer := putBytes m.buffer (slotAddr r m.head) args })
  | .beginPush ws =>
    if m.head - m.tail ≥ r.objNum then ((.pointer none [], { h with pushing := false }), m)
    else ((.pointer (some (slotAddr r m.head)) [], { h with pushing := true }), { m with
      buffer := placeBytes m.buffer (slotAddr r m.head) ws })
  | .endPush =>
    if h.pushing then ((.none, { h with pushing := false }), { m with head := m.head + 1 })
    else ((.none, h), m)
  | .pop size =>
    if size > r.objSize then ((.code ringbufPopSizeTooLarge [], { h with popping := false }), m)
    else if m.head = m.tail then ((.code ringbufEmpty [], { h with popping := false }), m)
    else ((.code (toSsize m.tail) ((List.range' (slotAddr r m.tail) size).map m.buffer),
      { h with popping := false }), { m with tail := m.tail + 1 })
  | .beginPop read =>
    if m.head = m.tail then ((.pointer none [], { h with popping := false }), m)
    else ((.pointer (some (slotAddr r m.tail))
        (read.run (fun j buffer => (buffer (slotAddr r m.tail + j), buffer)) m.buffer).1,
      { h with popping := true }), m)
  | .endPop =>
    if h.popping then ((.none, { h with popping := false }), { m with tail := m.tail + 1 })
    else ((.none, h), m)

/-- An operation whose test the cache does not mislead does what it does without caches. -/
theorem cmd_run {c : Cmd r.objSize} (hs : Sound r t m c) :
    ((cmd r h c).run (exec t) m).1 = (cmdSpec r h (core m) c).1 ∧
      core ((cmd r h c).run (exec t) m).2 = (cmdSpec r h (core m) c).2 := by
  cases c with
  | push args =>
    by_cases hlen : args.length > r.objSize
    · simp [cmd, cmdSpec, pushSpscRingBuf, hlen]
    · obtain ⟨lt, -, hrun⟩ := run_push (Nat.not_lt.1 hlen) (hs (Nat.not_lt.1 hlen))
      by_cases hfull : m.head - m.tail ≥ r.objNum <;>
        simp [cmd, cmdSpec, core, Prog.run_bind, hrun, hlen, hfull]
  | beginPush ws =>
    obtain ⟨lt, -, hrun⟩ := run_beginPush (h := h) ws hs
    by_cases hfull : m.head - m.tail ≥ r.objNum <;> simp [cmdSpec, core, hrun, hfull]
  | pop size =>
    by_cases hlen : size > r.objSize
    · simp [cmd, cmdSpec, popSpscRingBuf, hlen]
    · obtain ⟨lh, -, hrun⟩ := run_pop (Nat.not_lt.1 hlen) (hs (Nat.not_lt.1 hlen))
      by_cases hempty : m.head = m.tail <;>
        simp [cmd, cmdSpec, core, Prog.run_bind, hrun, hlen, hempty]
  | beginPop read =>
    obtain ⟨lh, -, hrun⟩ := run_beginPop (h := h) read hs
    by_cases hempty : m.head = m.tail <;> simp [cmdSpec, core, hrun, hempty]
  | endPush =>
    cases hp : h.pushing <;> simp [cmd, cmdSpec, core, endPushSpscRingBuf, exec, hp]
  | endPop =>
    cases hp : h.popping <;> simp [cmd, cmdSpec, core, endPopSpscRingBuf, exec, hp]

/-! ## Misled operations -/

theorem push_room {args : List Byte} (hlen : args.length ≤ r.objSize)
    (hroom : ¬ m.head - m.localTail t ≥ r.objNum) :
    ((cmd r h (.push args)).run (exec t) m).2.head = m.head + 1 := by
  rw [cmd, Prog.run_bind, pushSpscRingBuf, if_neg (Nat.not_lt.2 hlen)]
  show ((pushFull r m.head >>= _).run (exec t) m).2.head = _
  rw [Prog.run_bind, run_pushFull_room hroom]
  simp only [Bool.false_eq_true, if_false, Prog.run_bind, run_memcpyTo]
  rfl

theorem beginPush_room {ws : List (Fin r.objSize × Byte)}
    (hroom : ¬ m.head - m.localTail t ≥ r.objNum) :
    ((cmd r h (.beginPush ws)).run (exec t) m).1.2.pushing = true := by
  show (((pushFull r m.head >>= _) >>= _ : RingProg SizeT (Result × Held)).run
    (exec t) m).1.2.pushing = true
  rw [Prog.bind_assoc, Prog.run_bind, run_pushFull_room hroom]
  show ((writeObj _ ws >>= _ : RingProg SizeT (Result × Held)).run (exec t) _).1.2.pushing = true
  rw [Prog.run_bind]
  rfl

theorem pop_some {size : Nat} (hlen : size ≤ r.objSize) (hsome : m.localHead t ≠ m.tail) :
    ((cmd r h (.pop size)).run (exec t) m).2.tail = m.tail + 1 := by
  rw [cmd, Prog.run_bind, popSpscRingBuf, if_neg (Nat.not_lt.2 hlen)]
  show ((popEmpty m.tail >>= _).run (exec t) m).2.tail = _
  rw [Prog.run_bind, run_popEmpty_some hsome]
  simp only [Bool.false_eq_true, if_false, Prog.run_bind, run_memcpyFrom]
  rfl

theorem beginPop_some {read : Prog (Fin r.objSize) (fun _ => Byte) Empty (List Byte)}
    (hsome : m.localHead t ≠ m.tail) :
    ((cmd r h (.beginPop read)).run (exec t) m).1.2.popping = true := by
  show (((popEmpty m.tail >>= _) >>= _ : RingProg SizeT (Result × Held)).run
    (exec t) m).1.2.popping = true
  rw [Prog.bind_assoc, Prog.run_bind, run_popEmpty_some hsome]
  show ((readObj _ read >>= _ : RingProg SizeT (Result × Held)).run (exec t) _).1.2.popping = true
  rw [Prog.run_bind]
  rfl

theorem add_one_ne (w : SizeT) : w + 1 ≠ w := by
  intro h
  have := BitVec.add_right_eq_self.1 h
  cases this

end Spsc

end RingBuf
