import RingBuf.Spsc.Alone
import RingBuf.Window

/-!
# Several Spsc rings of one thread

The two private caches of the Spsc functions belong to the thread, not to the ring, so a thread that
uses two rings tests one of them against what it has seen of the other. The client here performs
single operations on any number of rings, one after the other, from new rings and zero caches.

* `inWindow_cmd`: as long as its threads use no other ring, the caches stay in the window of the
  ring's counters, and no operation is misled.
* `independent_iff`: what happens on a ring is independent of the others exactly if no operation on
  it is misled.
-/

namespace RingBuf

open Conc Word LawfulWord

namespace Spsc

variable {Tid : Type} [DecidableEq Tid] {r : Ring SizeT} {t : Tid} {m : Mem SizeT Tid} {h : Held}

/-! ## A ring whose threads use no other -/

/-- The counters and caches of a ring in one window: `T` elements have been popped, `H` pushed. -/
structure InWindow (r : Ring SizeT) (producer consumer : Tid) (h : Held) (m : Mem SizeT Tid)
    (T H : Nat) : Prop where
  head : m.head = word H
  tail : m.tail = word T
  le : T ≤ H
  room : H ≤ T + r.cap
  cacheTail : ∃ D, m.localTail producer = word D ∧ D ≤ T ∧ H ≤ D + r.cap ∧
    (h.pushing = true → H < D + r.cap)
  cacheHead : ∃ K, m.localHead consumer = word K ∧ T ≤ K ∧ K ≤ H ∧ (h.popping = true → T < K)

namespace InWindow

variable {producer consumer : Tid} {T H : Nat} {lt lh : Tid → SizeT} {h' : Held}

omit [DecidableEq Tid] in
theorem full_iff (hw : InWindow r producer consumer h m T H) :
    m.head - m.tail ≥ r.objNum ↔ H = T + r.cap := by
  rw [hw.head, hw.tail]
  exact Ring.full_iff r hw.le hw.room

omit [DecidableEq Tid] in
theorem empty_iff (hw : InWindow r producer consumer h m T H) : m.head = m.tail ↔ H = T := by
  rw [hw.head, hw.tail]
  exact Ring.empty_iff r hw.le hw.room

omit [DecidableEq Tid] in
theorem sound_push (hw : InWindow r producer consumer h m T H) :
    m.head - m.tail ≥ r.objNum → m.head - m.localTail producer ≥ r.objNum := by
  intro hfull
  obtain ⟨D, hD, hle, hroom, -⟩ := hw.cacheTail
  have heq := hw.full_iff.1 hfull
  rw [hw.head, hD, Ring.full_iff r (by omega) hroom]
  omega

omit [DecidableEq Tid] in
theorem sound_pop (hw : InWindow r producer consumer h m T H) :
    m.head = m.tail → m.localHead consumer = m.tail := by
  intro hempty
  obtain ⟨K, hK, hle, hge, -⟩ := hw.cacheHead
  have heq := hw.empty_iff.1 hempty
  rw [hK, hw.tail, show K = T by omega]

theorem tailCache (hw : InWindow r producer consumer h m T H)
    (hc : TailCache r producer m lt) : ∃ D, lt producer = word D ∧ D ≤ T ∧ H ≤ D + r.cap ∧
      (H ≠ T + r.cap → H < D + r.cap) := by
  obtain ⟨hlt, hshow⟩ := hc
  have hD : ∃ D, lt producer = word D ∧ D ≤ T ∧ H ≤ D + r.cap := by
    rcases hlt with rfl | rfl
    · obtain ⟨D, hD, hle, hroom, -⟩ := hw.cacheTail
      exact ⟨D, hD, hle, hroom⟩
    · exact ⟨T, by rw [Function.update_self, hw.tail], le_rfl, hw.room⟩
  obtain ⟨D, hD, hle, hroom⟩ := hD
  refine ⟨D, hD, hle, hroom, fun hne => ?_⟩
  have hfree := hshow fun hfull => hne (hw.full_iff.1 hfull)
  have := hw.le
  rw [hw.head, hD, Ring.full_iff r (by omega) hroom] at hfree
  omega

theorem headCache (hw : InWindow r producer consumer h m T H)
    (hc : HeadCache consumer m lh) : ∃ K, lh consumer = word K ∧ T ≤ K ∧ K ≤ H ∧
      (H ≠ T → T < K) := by
  obtain ⟨hlh, hshow⟩ := hc
  have hK : ∃ K, lh consumer = word K ∧ T ≤ K ∧ K ≤ H := by
    rcases hlh with rfl | rfl
    · obtain ⟨K, hK, hle, hge, -⟩ := hw.cacheHead
      exact ⟨K, hK, hle, hge⟩
    · exact ⟨H, by rw [Function.update_self, hw.head], hw.le, le_rfl⟩
  obtain ⟨K, hK, hle, hge⟩ := hK
  refine ⟨K, hK, hle, hge, fun hne => ?_⟩
  have hsome := hshow fun hempty => hne (hw.empty_iff.1 hempty)
  have := hw.room
  rw [hK, hw.tail, Ne, Ring.empty_iff r hle (by omega)] at hsome
  omega

omit [DecidableEq Tid] in
theorem setTail (hw : InWindow r producer consumer h m T H) {buffer : Nat → Byte}
    (hc : ∃ D, lt producer = word D ∧ D ≤ T ∧ H ≤ D + r.cap ∧
      (h'.pushing = true → H < D + r.cap)) (hh : h'.popping = h.popping) :
    InWindow r producer consumer h' { m with buffer := buffer, localTail := lt } T H :=
  ⟨hw.head, hw.tail, hw.le, hw.room, hc, hh ▸ hw.cacheHead⟩

omit [DecidableEq Tid] in
theorem push (hw : InWindow r producer consumer h m T H) {buffer : Nat → Byte}
    (hc : ∃ D, lt producer = word D ∧ D ≤ T ∧ H < D + r.cap) (hh : h'.popping = h.popping)
    (hp : h'.pushing = false) :
    InWindow r producer consumer h'
      { m with head := m.head + 1, buffer := buffer, localTail := lt } T (H + 1) := by
  obtain ⟨D, hD, hle, hroom⟩ := hc
  obtain ⟨K, hK, hKle, hKge, hKp⟩ := hw.cacheHead
  refine ⟨?_, hw.tail, Nat.le_succ_of_le hw.le, by omega, ⟨D, hD, hle, hroom, by simp [hp]⟩,
    ⟨K, hK, hKle, Nat.le_succ_of_le hKge, hh ▸ hKp⟩⟩
  show m.head + 1 = _
  rw [hw.head, word_succ]

omit [DecidableEq Tid] in
theorem setHead (hw : InWindow r producer consumer h m T H)
    (hc : ∃ K, lh consumer = word K ∧ T ≤ K ∧ K ≤ H ∧ (h'.popping = true → T < K))
    (hh : h'.pushing = h.pushing) :
    InWindow r producer consumer h' { m with localHead := lh } T H :=
  ⟨hw.head, hw.tail, hw.le, hw.room, hh ▸ hw.cacheTail, hc⟩

omit [DecidableEq Tid] in
theorem pop (hw : InWindow r producer consumer h m T H)
    (hc : ∃ K, lh consumer = word K ∧ T < K ∧ K ≤ H) (hh : h'.pushing = h.pushing)
    (hp : h'.popping = false) :
    InWindow r producer consumer h' { m with tail := m.tail + 1, localHead := lh } (T + 1) H := by
  obtain ⟨K, hK, hKlt, hKge⟩ := hc
  obtain ⟨D, hD, hle, hroom, hDp⟩ := hw.cacheTail
  have := hw.room
  refine ⟨hw.head, ?_, by omega, by omega, ⟨D, hD, by omega, hroom, hh ▸ hDp⟩,
    ⟨K, hK, hKlt, hKge, by simp [hp]⟩⟩
  show m.tail + 1 = _
  rw [hw.tail, word_succ]

end InWindow

/-- The operations of the ring's own threads keep the window. -/
theorem inWindow_cmd {producer consumer : Tid} {T H : Nat}
    (hw : InWindow r producer consumer h m T H) (c : Cmd r.objSize) :
    ∃ T' H', InWindow r producer consumer
      ((cmd r h c).run (exec (if c.pushes then producer else consumer)) m).1.2
      ((cmd r h c).run (exec (if c.pushes then producer else consumer)) m).2 T' H' := by
  cases c with
  | push args =>
    show ∃ T' H', InWindow r producer consumer ((cmd r h (.push args)).run (exec producer) m).1.2
      ((cmd r h (.push args)).run (exec producer) m).2 T' H'
    rw [cmd, Prog.run_bind]
    by_cases hlen : args.length > r.objSize
    · obtain ⟨D, hD, hle, hroom, -⟩ := hw.cacheTail
      rw [pushSpscRingBuf, if_pos hlen]
      exact ⟨T, H, hw.setTail ⟨D, hD, hle, hroom, by simp⟩ rfl⟩
    · obtain ⟨lt, hcache, hrun⟩ := run_push (Nat.not_lt.1 hlen) hw.sound_push
      obtain ⟨D, hD, hle, hroom, hlt⟩ := hw.tailCache hcache
      rw [hrun]
      by_cases hfull : m.head - m.tail ≥ r.objNum
      · rw [if_pos hfull]
        exact ⟨T, H, hw.setTail ⟨D, hD, hle, hroom, by simp⟩ rfl⟩
      · rw [if_neg hfull]
        have hne : H ≠ T + r.cap := fun h => hfull (hw.full_iff.2 h)
        exact ⟨T, H + 1, hw.push ⟨D, hD, hle, hlt hne⟩ rfl rfl⟩
  | beginPush ws =>
    show ∃ T' H', InWindow r producer consumer
      ((cmd r h (.beginPush ws)).run (exec producer) m).1.2
      ((cmd r h (.beginPush ws)).run (exec producer) m).2 T' H'
    obtain ⟨lt, hcache, hrun⟩ := run_beginPush (h := h) ws hw.sound_push
    obtain ⟨D, hD, hle, hroom, hlt⟩ := hw.tailCache hcache
    rw [hrun]
    by_cases hfull : m.head - m.tail ≥ r.objNum
    · rw [if_pos hfull]
      exact ⟨T, H, hw.setTail ⟨D, hD, hle, hroom, by simp⟩ rfl⟩
    · rw [if_neg hfull]
      have hne : H ≠ T + r.cap := fun h => hfull (hw.full_iff.2 h)
      exact ⟨T, H, hw.setTail ⟨D, hD, hle, hroom, fun _ => hlt hne⟩ rfl⟩
  | endPush =>
    show ∃ T' H', InWindow r producer consumer ((cmd r h .endPush).run (exec producer) m).1.2
      ((cmd r h .endPush).run (exec producer) m).2 T' H'
    obtain ⟨D, hD, hle, -, hlt⟩ := hw.cacheTail
    rw [cmd]
    by_cases hp : h.pushing = true
    · rw [if_pos hp]
      exact ⟨T, H + 1, hw.push ⟨D, hD, hle, hlt hp⟩ rfl rfl⟩
    · rw [if_neg hp]
      exact ⟨T, H, hw⟩
  | pop size =>
    show ∃ T' H', InWindow r producer consumer ((cmd r h (.pop size)).run (exec consumer) m).1.2
      ((cmd r h (.pop size)).run (exec consumer) m).2 T' H'
    rw [cmd, Prog.run_bind]
    by_cases hlen : size > r.objSize
    · obtain ⟨K, hK, hle, hge, -⟩ := hw.cacheHead
      rw [popSpscRingBuf, if_pos hlen]
      exact ⟨T, H, hw.setHead ⟨K, hK, hle, hge, by simp⟩ rfl⟩
    · obtain ⟨lh, hcache, hrun⟩ := run_pop (Nat.not_lt.1 hlen) hw.sound_pop
      obtain ⟨K, hK, hle, hge, hlt⟩ := hw.headCache hcache
      rw [hrun]
      by_cases hempty : m.head = m.tail
      · rw [if_pos hempty]
        exact ⟨T, H, hw.setHead ⟨K, hK, hle, hge, by simp⟩ rfl⟩
      · rw [if_neg hempty]
        have hne : H ≠ T := fun h => hempty (hw.empty_iff.2 h)
        exact ⟨T + 1, H, hw.pop ⟨K, hK, hlt hne, hge⟩ rfl rfl⟩
  | beginPop read =>
    show ∃ T' H', InWindow r producer consumer
      ((cmd r h (.beginPop read)).run (exec consumer) m).1.2
      ((cmd r h (.beginPop read)).run (exec consumer) m).2 T' H'
    obtain ⟨lh, hcache, hrun⟩ := run_beginPop (h := h) read hw.sound_pop
    obtain ⟨K, hK, hle, hge, hlt⟩ := hw.headCache hcache
    rw [hrun]
    by_cases hempty : m.head = m.tail
    · rw [if_pos hempty]
      exact ⟨T, H, hw.setHead ⟨K, hK, hle, hge, by simp⟩ rfl⟩
    · rw [if_neg hempty]
      have hne : H ≠ T := fun h => hempty (hw.empty_iff.2 h)
      exact ⟨T, H, hw.setHead ⟨K, hK, hle, hge, fun _ => hlt hne⟩ rfl⟩
  | endPop =>
    show ∃ T' H', InWindow r producer consumer ((cmd r h .endPop).run (exec consumer) m).1.2
      ((cmd r h .endPop).run (exec consumer) m).2 T' H'
    obtain ⟨K, hK, hle, hge, hlt⟩ := hw.cacheHead
    rw [cmd]
    by_cases hp : h.popping = true
    · rw [if_pos hp]
      exact ⟨T + 1, H, hw.pop ⟨K, hK, hlt hp, hge⟩ rfl rfl⟩
    · rw [if_neg hp]
      exact ⟨T, H, hw⟩

omit [DecidableEq Tid] in
/-- In a window no operation is misled. -/
theorem InWindow.sound {producer consumer : Tid} {T H : Nat}
    (hw : InWindow r producer consumer h m T H) (c : Cmd r.objSize) :
    Sound r (if c.pushes then producer else consumer) m c := by
  cases c with
  | push args => exact fun _ => hw.sound_push
  | beginPush ws => exact hw.sound_push
  | pop size => exact fun _ => hw.sound_pop
  | beginPop read => exact hw.sound_pop
  | _ => trivial

/-! ## A client of several rings -/

variable {ι : Type} [DecidableEq ι]

/-- The rings, what the client holds of each, and the caches of its threads. -/
structure Client (ι Tid : Type) where
  ring : ι → Core
  held : ι → Held
  localHead : Tid → SizeT
  localTail : Tid → SizeT

/-- An operation on one of the rings. -/
abbrev Action (r : ι → Ring SizeT) := (i : ι) × Cmd (r i).objSize

namespace Client

/-- New rings, used by threads that have used no ring. -/
def new (r : ι → Ring SizeT) (m : ι → Mem SizeT Tid) : Client ι Tid where
  ring i := core (getBuf (r i) .noSlot (m i))
  held _ := ⟨false, false⟩
  localHead _ := 0
  localTail _ := 0

/-- Ring `i` with the caches that an operation on it finds. -/
def mem (s : Client ι Tid) (i : ι) : Mem SizeT Tid where
  head := (s.ring i).head
  tail := (s.ring i).tail
  slot _ := 0
  buffer := (s.ring i).buffer
  localHead := s.localHead
  localTail := s.localTail

variable (r : ι → Ring SizeT) (producer consumer : Tid)

/-- The thread that performs an operation. -/
def actor (x : Action r) : Tid := if x.2.pushes then producer else consumer

/-- One operation. -/
def step (s : Client ι Tid) (x : Action r) : Result × Client ι Tid :=
  let out := (cmd (r x.1) (s.held x.1) x.2).run (exec (actor r producer consumer x)) (s.mem x.1)
  (out.1.1, {
    ring := Function.update s.ring x.1 (core out.2)
    held := Function.update s.held x.1 out.1.2
    localHead := out.2.localHead
    localTail := out.2.localTail })

/-- What a sequence of operations returns, with the rings they are on. -/
def results : List (Action r) → Client ι Tid → List (ι × Result)
  | [], _ => []
  | x :: xs, s =>
    (x.1, (s.step r producer consumer x).1) :: results xs (s.step r producer consumer x).2

/-- `P` holds of every operation of a sequence and the state before it. -/
def Along (P : Client ι Tid → Action r → Prop) : List (Action r) → Client ι Tid → Prop
  | [], _ => True
  | x :: xs, s => P s x ∧ Along P xs (s.step r producer consumer x).2

/-- On ring `a`, the caches do not hide from an operation that the ring is full or empty. -/
def SoundAt (a : ι) (s : Client ι Tid) (x : Action r) : Prop :=
  x.1 = a → Sound (r x.1) (actor r producer consumer x) (s.mem x.1) x.2

/-- Ring `a`, when full, takes no element and loses none, and when empty it gives none. -/
def SafeAt (a : ι) (s : Client ι Tid) (x : Action r) : Prop :=
  let s' := (s.step r producer consumer x).2
  x.1 = a → match x.2 with
    | .push _ => (s.ring x.1).head - (s.ring x.1).tail ≥ (r x.1).objNum →
      (s'.ring x.1).head = (s.ring x.1).head ∧ (s'.ring x.1).buffer = (s.ring x.1).buffer
    | .beginPush _ => (s.ring x.1).head - (s.ring x.1).tail ≥ (r x.1).objNum →
      (s'.held x.1).pushing = false ∧ (s'.ring x.1).buffer = (s.ring x.1).buffer
    | .pop _ => (s.ring x.1).head = (s.ring x.1).tail → (s'.ring x.1).tail = (s.ring x.1).tail
    | .beginPop _ => (s.ring x.1).head = (s.ring x.1).tail → (s'.held x.1).popping = false
    | _ => True

/-- What happens on ring `a` does not depend on the other rings, and is right. -/
structure Independent (a : ι) (xs : List (Action r)) (s : Client ι Tid) : Prop where
  same : (results r producer consumer xs s).filter (fun y => y.1 = a) =
    results r producer consumer (xs.filter fun x => x.1 = a) s
  safe : Along r producer consumer (SafeAt r producer consumer a) xs s

variable {r producer consumer} {a : ι} {s s' : Client ι Tid} {x : Action r} {xs : List (Action r)}

theorem Along.mono {P Q : Client ι Tid → Action r → Prop} (h : ∀ s x, P s x → Q s x)
    (hP : Along r producer consumer P xs s) : Along r producer consumer Q xs s := by
  induction xs generalizing s with
  | nil => trivial
  | cons x xs ih => exact ⟨h s x hP.1, ih hP.2⟩

theorem step_of_sound
    (hs : Sound (r x.1) (actor r producer consumer x) (s.mem x.1) x.2) :
    (s.step r producer consumer x).1 = (cmdSpec (r x.1) (s.held x.1) (s.ring x.1) x.2).1.1 ∧
    ((s.step r producer consumer x).2.held x.1) =
      (cmdSpec (r x.1) (s.held x.1) (s.ring x.1) x.2).1.2 ∧
    ((s.step r producer consumer x).2.ring x.1) =
      (cmdSpec (r x.1) (s.held x.1) (s.ring x.1) x.2).2 := by
  obtain ⟨hout, hcore⟩ := cmd_run (h := s.held x.1) hs
  refine ⟨congrArg Prod.fst hout, ?_, ?_⟩
  · simp only [step, Function.update_self]
    exact congrArg Prod.snd hout
  · simp only [step, Function.update_self]
    exact hcore

theorem step_of_ne (h : a ≠ x.1) :
    (s.step r producer consumer x).2.ring a = s.ring a ∧
      (s.step r producer consumer x).2.held a = s.held a := by
  simp [step, h]

/-- Caches that mislead no operation lead to no wrong one. -/
theorem safe_of_sound (h : SoundAt r producer consumer a s x) :
    SafeAt r producer consumer a s x := by
  intro hx
  obtain ⟨-, hheld, hring⟩ := step_of_sound (h hx)
  obtain ⟨i, c⟩ := x
  cases c with
  | push args =>
    intro hfull
    simp only [hring, cmdSpec, if_pos hfull]
    split_ifs <;> exact ⟨rfl, rfl⟩
  | beginPush ws =>
    intro hfull
    simp [hring, hheld, cmdSpec, if_pos hfull]
  | pop size =>
    intro hempty
    simp only [hring, cmdSpec, if_pos hempty]
    split_ifs <;> rfl
  | beginPop read =>
    intro hempty
    simp only [hheld, cmdSpec, if_pos hempty]
  | _ => trivial

/-- Caches that mislead an operation lead to a wrong one. -/
theorem sound_of_safe (h : SafeAt r producer consumer a s x) :
    SoundAt r producer consumer a s x := by
  intro hx
  have hsafe := h hx
  obtain ⟨i, c⟩ := x
  simp only [step, Function.update_self] at hsafe
  cases c with
  | push args =>
    intro hlen hfull
    by_contra hroom
    exact add_one_ne _ ((push_room hlen hroom).symm.trans (hsafe hfull).1)
  | beginPush ws =>
    intro hfull
    by_contra hroom
    cases (beginPush_room hroom).symm.trans (hsafe hfull).1
  | pop size =>
    intro hlen hempty
    by_contra hsome
    exact add_one_ne _ ((pop_some hlen hsome).symm.trans (hsafe hempty))
  | beginPop read =>
    intro hempty
    by_contra hsome
    cases (beginPop_some hsome).symm.trans (hsafe hempty)
  | _ => trivial

/-! ## Two runs -/

/-- The client that uses only ring `a`, beside one that uses others as well. -/
structure Beside (r : ι → Ring SizeT) (producer consumer : Tid) (a : ι) (s s' : Client ι Tid) :
    Prop where
  ring : s'.ring a = s.ring a
  held : s'.held a = s.held a
  window : ∃ T H, InWindow (r a) producer consumer (s'.held a) (s'.mem a) T H

theorem Beside.other (h : Beside r producer consumer a s s') (hx : a ≠ x.1) :
    Beside r producer consumer a (s.step r producer consumer x).2 s' := by
  obtain ⟨hring, hheld⟩ : (s.step r producer consumer x).2.ring a = s.ring a ∧
      (s.step r producer consumer x).2.held a = s.held a := step_of_ne hx
  exact ⟨h.ring.trans hring.symm, h.held.trans hheld.symm, h.window⟩

/-- An operation on the ring itself, when the caches do not mislead it. -/
theorem Beside.both {c : Cmd (r a).objSize} (h : Beside r producer consumer a s s')
    (hs : SoundAt r producer consumer a s ⟨a, c⟩) :
    (s.step r producer consumer ⟨a, c⟩).1 = (s'.step r producer consumer ⟨a, c⟩).1 ∧
      Beside r producer consumer a (s.step r producer consumer ⟨a, c⟩).2
        (s'.step r producer consumer ⟨a, c⟩).2 := by
  obtain ⟨hring, hheld, T, H, hw⟩ := h
  obtain ⟨h₁, h₂, h₃⟩ := step_of_sound (hs rfl)
  obtain ⟨h₁', h₂', h₃'⟩ := step_of_sound (x := (⟨a, c⟩ : Action r)) (s := s') (hw.sound c)
  rw [hring, hheld] at h₁' h₂' h₃'
  refine ⟨h₁.trans h₁'.symm, h₃'.trans h₃.symm, h₂'.trans h₂.symm, ?_⟩
  obtain ⟨T', H', hw'⟩ := inWindow_cmd hw c
  refine ⟨T', H', ?_⟩
  simp only [step, mem, Function.update_self]
  exact ⟨hw'.head, hw'.tail, hw'.le, hw'.room, hw'.cacheTail, hw'.cacheHead⟩

/-- Two runs side by side return the same on the ring. -/
theorem same_of_sound (h : Beside r producer consumer a s s')
    (hs : Along r producer consumer (SoundAt r producer consumer a) xs s) :
    (results r producer consumer xs s).filter (fun y => y.1 = a) =
      results r producer consumer (xs.filter fun x => x.1 = a) s' := by
  induction xs generalizing s s' with
  | nil => rfl
  | cons x xs ih =>
    obtain ⟨hx, hxs⟩ := hs
    obtain ⟨i, c⟩ := x
    by_cases hi : i = a
    · subst hi
      obtain ⟨hout, hnext⟩ := h.both hx
      simp only [results, List.filter_cons, decide_true, if_true, hout, ih hnext hxs]
    · have hne : a ≠ (⟨i, c⟩ : Action r).1 := fun e => hi e.symm
      simp only [results, List.filter_cons, hi, decide_false, Bool.false_eq_true, if_false,
        ih (h.other hne) hxs]

omit [DecidableEq Tid] [DecidableEq ι] in
theorem beside_new (m : ι → Mem SizeT Tid) :
    Beside r producer consumer a (new r m) (new r m) where
  ring := rfl
  held := rfl
  window := ⟨0, 0, rfl, rfl, le_rfl, Nat.zero_le _, ⟨0, rfl, le_rfl, Nat.zero_le _, by simp [new]⟩,
    ⟨0, rfl, le_rfl, le_rfl, by simp [new]⟩⟩

/-- **A ring is independent of the others exactly if their traces in the caches never hide from an
operation on it that it is full or empty.** -/
theorem independent_iff (m : ι → Mem SizeT Tid) (a : ι) (xs : List (Action r)) :
    Independent r producer consumer a xs (new r m) ↔
      Along r producer consumer (SoundAt r producer consumer a) xs (new r m) := by
  constructor
  · intro h
    exact h.safe.mono fun _ _ => sound_of_safe
  · intro h
    exact ⟨same_of_sound (beside_new m) h, h.mono fun _ _ => safe_of_sound⟩

/-- After a push and a pop on ring `false`, a pop on the new ring `true` succeeds. -/
def pushPopPop : List (Action fun _ : Bool => tinyRing) :=
  [⟨false, .push [7]⟩, ⟨false, .pop 1⟩, ⟨true, .pop 1⟩]

theorem not_independent : ¬ Independent (fun _ => tinyRing) true false true pushPopPop
    (new (fun _ => tinyRing) fun _ => (.zero : Mem SizeT Bool)) := by
  intro h
  have hne : (results (fun _ => tinyRing) true false pushPopPop
      (new (fun _ => tinyRing) fun _ => (.zero : Mem SizeT Bool))).filter (fun y => y.1 = true) ≠
        results (fun _ => tinyRing) true false (pushPopPop.filter fun x => x.1 = true)
          (new (fun _ => tinyRing) fun _ => (.zero : Mem SizeT Bool)) := by decide
  exact hne h.same

end Client

end Spsc

end RingBuf
