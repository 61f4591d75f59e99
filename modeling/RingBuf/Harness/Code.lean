import RingBuf.Conc.Client
import RingBuf.Harness.Obj

/-!
# `producer.c` and `consumer.c`

The threads of the two test programs, over any kind of ring (`Kind`). A producer takes the next
number from `pushed`, fills an object with it and pushes it, again and again until the push
succeeds; it ends when the numbers have reached `N`. A consumer takes a number from `got`, pops
until it gets an object, and checks the object, or stamps the time of its arrival.

What the programs print is left out, and so are the times themselves: `stamp` only says which entry
of `arr` is written. With `TIME_TEST` 2 the producer stamps the time inside the push, after its
compare-exchange; that build is not modelled.

Nor is what the two `main`s do once they have joined their own threads: each calls `Del_*RingBuf`
on the ring that both programs share. On the lock-free rings this only closes and unmaps what
belongs to its own process. On a Block ring it destroys the mutex and the conditions, whether or not
the threads of the other program are done (`RingBuf.Block.Leave`), so there the results are about
what the threads do before either `main` has come to its `Del_BlockRingBuf`.
-/

namespace RingBuf

open Conc Bytes

namespace Harness

/-- What the test programs use of a kind of ring. -/
structure Kind (Call Ret : Type) where
  push : List Byte → Call
  pop : Nat → Call
  /-- The return code. -/
  rc : Ret → Int
  /-- The bytes a pop has written. -/
  buf : Ret → List Byte

/-- The counter of each program. -/
inductive Counter
  | pushed
  | got
  deriving DecidableEq

/-- The operations of a test thread besides its calls. `stamp` writes the start or the end time of
entry `i` of `arr`, and `abort` is an `assert` that has failed. -/
inductive Own
  | fetchAdd (c : Counter)
  | stamp (c : Counter) (i : SizeT)
  | abort

/-- What an operation answers. -/
@[reducible] def Own.Res : Own → Type
  | .fetchAdd _ => SizeT
  | _ => Unit

/-- The effect of an operation on the counters. -/
def Own.exec {Tid : Type} (_ : Tid) :
    (o : Own) → (Counter → SizeT) → o.Res → (Counter → SizeT) → Prop
  | .fetchAdd c, s, x, s' => x = s c ∧ s' = Function.update s c (s c + 1)
  | .stamp _ _, s, _, s' => s' = s
  | .abort, s, _, s' => s' = s

/-- The constants of `common.h`: `N`, and whether `TIME_TEST` is 1 or 0 (not 2). -/
structure Constants where
  n : SizeT
  timeTest : Bool

/-- What a thread does, the producer with the bytes its `Obj` happens to hold at first. -/
inductive Job
  | producer (o : Data)
  | consumer

/-- The loops: over the numbers, and around a push or a pop. -/
inductive Loop
  | produce (o : Data)
  | push (o : Data)
  | consume
  | pop

section Code

variable {Call Ret : Type} (K : Kind Call Ret) (cs : Constants)

/-- A program of a test thread. -/
abbrev TestProg (Call Ret α : Type) := Prog (Use Own Call) (Use.Res Own.Res Call Ret) Loop α

def fetchAdd (c : Counter) : TestProg Call Ret SizeT := .op (.own (.fetchAdd c)) .ret

def stamp (c : Counter) (i : SizeT) : TestProg Call Ret Unit := .op (.own (.stamp c i)) .ret

def abort : TestProg Call Ret Unit := .op (.own .abort) .ret

/-- A call on the ring, up to its return. -/
def call (a : Call) : TestProg Call Ret Ret := .op (.make a) fun _ => .op .await .ret

/-- `do_timestemp` -/
def doTimestemp (pushed : SizeT) (o : Data) : TestProg Call Ret Data := do
  stamp .pushed pushed
  pure (setSeq o pushed)

/-- The loop of `producer_thd_work` over the numbers. -/
def produceLoop (o : Data) : TestProg Call Ret Unit := do
  let pushed ← fetchAdd .pushed
  if pushed < cs.n then do
    let o := fillObj o text pushed
    if cs.timeTest then do
      let o ← doTimestemp pushed o
      .jump (.push o)
    else .jump (.push o)
  else pure ()

/-- The loop of `producer_thd_work` around the push. -/
def pushLoop (o : Data) : TestProg Call Ret Unit := do
  let rcc ← call (K.push (toBytes o))
  if K.rc rcc < 0 then .jump (.push o) else .jump (.produce o)

/-- `chose_test_type_comsumer` -/
def choseTestTypeComsumer (o : Data) : TestProg Call Ret Unit :=
  if cs.timeTest then stamp .got (seq o)
  else if check o text then pure ()
  else abort

/-- The loop of `consumer_thd_work` over the numbers. -/
def consumeLoop : TestProg Call Ret Unit := do
  let got ← fetchAdd .got
  if got < cs.n then .jump .pop else pure ()

/-- The loop of `consumer_thd_work` around the pop. -/
def popLoop : TestProg Call Ret Unit := do
  let rcc ← call (K.pop sizeofObj)
  if K.rc rcc < 0 then .jump .pop
  else do
    choseTestTypeComsumer cs (ofBytes (K.buf rcc))
    .jump .consume

/-- `producer_thd_work` and `consumer_thd_work` -/
def thdWork : Job → TestProg Call Ret Unit
  | .producer o => produceLoop cs o
  | .consumer => consumeLoop cs

/-- The code behind the loops. -/
def loop : Loop → TestProg Call Ret Unit
  | .produce o => produceLoop cs o
  | .push o => pushLoop K o
  | .consume => consumeLoop cs
  | .pop => popLoop K cs

variable {Op : Type} {Res : Op → Type} {Lbl Tid σ : Type} [DecidableEq Tid]

/-- Both programs on one ring, which has the system `S`. Any number of threads may be created, as
far as `allow` lets them. -/
def sys (S : Sys Op Res Lbl Tid Call Ret σ) (allow : (Tid → Option Job) → Tid → Job → Prop) :
    Sys (Use Own Call) (Use.Res Own.Res Call Ret) Loop Tid Job Unit
      (World Op Res Lbl Tid Call Ret σ (Counter → SizeT)) :=
  S.use Own.exec (thdWork cs) (loop K cs) allow

end Code

/-! ## What the threads do, as moves -/

/-- Where a test thread is. `filled` has an object to push, `taken` is at the head of the consumer's
loop, with what the last pop has returned as long as it has not been looked at, and `ended` has
taken a number that is too large. -/
inductive Role (Ret : Type)
  | next
  | filled (k : SizeT) (bs : List Byte)
  | pushing (k : SizeT) (bs : List Byte)
  | taken (v : Option Ret)
  | claimed
  | popping
  | ended (c : Counter) (k : SizeT)

variable {Call Ret : Type} (K : Kind Call Ret) (cs : Constants)

/-- The moves. -/
inductive Trans : Role Ret → (o : Use Own Call) → Use.Res Own.Res Call Ret o → Role Ret → Prop
  | fill {k bs} : k < cs.n → Intact k bs →
      Trans .next (.own (.fetchAdd .pushed)) k (.filled k bs)
  | stampStart {k bs} : Trans (.filled k bs) (.own (.stamp .pushed k)) () (.filled k bs)
  | push {k bs} : Trans (.filled k bs) (.make (K.push bs)) () (.pushing k bs)
  | pushAgain {k bs v} : K.rc v < 0 → Trans (.pushing k bs) .await v (.filled k bs)
  | pushed {k bs v} : 0 ≤ K.rc v → Trans (.pushing k bs) .await v .next
  | claim {k v} : k < cs.n → Trans (.taken v) (.own (.fetchAdd .got)) k .claimed
  | pop : Trans .claimed (.make (K.pop sizeofObj)) () .popping
  | popAgain {v} : K.rc v < 0 → Trans .popping .await v .claimed
  | popped {v} : 0 ≤ K.rc v → Trans .popping .await v (.taken (some v))
  | stampEnd {v} : Trans (.taken (some v)) (.own (.stamp .got (seq (ofBytes (K.buf v))))) ()
      (.taken none)
  | abort {v} : check (ofBytes (K.buf v)) text = false →
      Trans (.taken (some v)) (.own .abort) () (.taken none)
  | pushedAll {k} : ¬ k < cs.n → Trans .next (.own (.fetchAdd .pushed)) k (.ended .pushed k)
  | gotAll {k v} : ¬ k < cs.n → Trans (.taken v) (.own (.fetchAdd .got)) k (.ended .got k)

/-- The protocol of the test threads. -/
def proto : Proto (Use Own Call) (Use.Res Own.Res Call Ret) Loop Job Unit (Role Ret) where
  start
    | .producer _ => .next
    | .consumer => .taken none
  trans := Trans K cs
  final
    | .ended _ _, _ => True
    | _, _ => False
  entry
    | .produce _, l => l = .next
    | .push o, l => ∃ k, l = .filled k (toBytes o)
    | .consume, l => ∃ v, l = .taken v
    | .pop, l => l = .claimed

/-- The call on the ring that a role waits for. -/
def Role.inside : Role Ret → Option Call
  | .pushing _ bs => some (K.push bs)
  | .popping => some (K.pop sizeofObj)
  | _ => none

variable {K cs}

theorem awaits : Awaits (proto K cs) (Role.inside K) where
  start j := by cases j <;> rfl
  own h := by cases h <;> rfl
  make h := by cases h <;> rfl
  await h := by cases h <;> rfl
  final {l v} h := by
    cases l with
    | ended c k => rfl
    | _ => exact h.elim

/-! ## The programs follow the protocol -/

/-- The head of the producer's loop, whatever the object holds. -/
theorem produceLoop_follows (o : Data) :
    (proto K cs).wp (produceLoop cs o : TestProg Call Ret Unit) (proto K cs).final .next := by
  intro k
  by_cases hk : k < cs.n
  · refine ⟨_, .fill hk (intact_fillObj o k), ?_⟩
    show (proto K cs).wp (if k < cs.n then _ else _) _ _
    rw [if_pos hk]
    by_cases ht : cs.timeTest = true
    · rw [if_pos ht]
      refine Proto.wp_op fun _ => ⟨_, .stampStart, k, ?_⟩
      -- The number is stored a second time.
      rw [show setSeq (fillObj o text k) k = fillObj o text k from setSeq_setSeq]
    · rw [if_neg ht]
      exact ⟨k, rfl⟩
  · refine ⟨_, .pushedAll hk, ?_⟩
    show (proto K cs).wp (if k < cs.n then _ else _) _ _
    rw [if_neg hk]
    trivial

theorem consumeLoop_follows (v : Option Ret) :
    (proto K cs).wp (consumeLoop cs : TestProg Call Ret Unit) (proto K cs).final (.taken v) := by
  intro k
  by_cases hk : k < cs.n
  · refine ⟨_, .claim hk, ?_⟩
    show (proto K cs).wp (if k < cs.n then _ else _) _ _
    rw [if_pos hk]
    rfl
  · refine ⟨_, .gotAll hk, ?_⟩
    show (proto K cs).wp (if k < cs.n then _ else _) _ _
    rw [if_neg hk]
    trivial

theorem pushLoop_follows {k : SizeT} (o : Data) :
    (proto K cs).wp (pushLoop K o) (proto K cs).final (.filled k (toBytes o)) := by
  refine Proto.wp_op fun _ => ⟨_, .push, Proto.wp_op fun v => ?_⟩
  by_cases hv : K.rc v < 0
  · refine ⟨_, .pushAgain hv, ?_⟩
    show (proto K cs).wp (if K.rc v < 0 then _ else _) _ _
    rw [if_pos hv]
    exact ⟨k, rfl⟩
  · refine ⟨_, .pushed (Int.not_lt.1 hv), ?_⟩
    show (proto K cs).wp (if K.rc v < 0 then _ else _) _ _
    rw [if_neg hv]
    rfl

/-- The consumer looks at what it has got. -/
theorem choseTestType_follows (v : Ret) :
    (proto K cs).wp (choseTestTypeComsumer cs (ofBytes (K.buf v)) : TestProg Call Ret Unit)
      (fun l _ => ∃ v', l = .taken v') (.taken (some v)) := by
  rw [choseTestTypeComsumer]
  by_cases ht : cs.timeTest = true
  · rw [if_pos ht]
    exact Proto.wp_op fun _ => ⟨_, .stampEnd, none, rfl⟩
  · rw [if_neg ht]
    by_cases hc : check (ofBytes (K.buf v)) text = true
    · rw [if_pos hc]
      exact ⟨_, rfl⟩
    · rw [if_neg hc]
      exact Proto.wp_op fun _ => ⟨_, .abort (Bool.eq_false_iff.2 hc), none, rfl⟩

theorem popLoop_follows :
    (proto K cs).wp (popLoop K cs) (proto K cs).final .claimed := by
  refine Proto.wp_op fun _ => ⟨_, .pop, Proto.wp_op fun v => ?_⟩
  by_cases hv : K.rc v < 0
  · refine ⟨_, .popAgain hv, ?_⟩
    show (proto K cs).wp (if K.rc v < 0 then _ else _) _ _
    rw [if_pos hv]
    rfl
  · refine ⟨_, .popped (Int.not_lt.1 hv), ?_⟩
    show (proto K cs).wp (if K.rc v < 0 then _ else _) _ _
    rw [if_neg hv]
    exact Proto.wp_bind (choseTestType_follows v)

variable {Op : Type} {Res : Op → Type} {Lbl Tid σ : Type} [DecidableEq Tid]

theorem follows (S : Sys Op Res Lbl Tid Call Ret σ)
    (allow : (Tid → Option Job) → Tid → Job → Prop) :
    (proto K cs).Follows (sys K cs S allow) where
  body j := by
    cases j with
    | producer o => exact produceLoop_follows o
    | consumer => exact consumeLoop_follows none
  code j l h := by
    cases j with
    | produce o =>
      obtain rfl := h
      exact produceLoop_follows o
    | push o =>
      obtain ⟨k, rfl⟩ := h
      exact pushLoop_follows o
    | consume =>
      obtain ⟨v, rfl⟩ := h
      exact consumeLoop_follows v
    | pop =>
      obtain rfl := h
      exact popLoop_follows

end Harness

end RingBuf
