import RingBuf.Block.Protocol
import RingBuf.Conc.Claims
import RingBuf.Window

/-!
# The invariant of the blocking ring

The mutex is held by the thread whose role says so, and sleepers are inside their wait
(`mutual_inductive`). The history is that of a queue; only the holder of the mutex knows more of
the counters and slots than the history says, and what the others know of the history stays true
(`blockInv_inductive`). Runs may have any length, and the counters may wrap.
-/

namespace RingBuf

open Conc Word LawfulWord

namespace Block

variable {Tid : Type}

/-- An event of the blocking system. -/
abbrev Ev (Tid : Type) := Event Op Op.Res Tid Call Ret

/-- The roles of the threads of the blocking system. -/
abbrev BRoles (Tid : Type) := Roles Tid Call Role

/-! ## The mutex -/

/-- The role holds the mutex. -/
def Role.holds : Role → Bool
  | .start _ | .waiting _ | .done _ _ _ _ => false
  | _ => true

/-- The condition the role waits for. -/
def Role.waits : Role → Option Cond
  | .waiting c => some c.needs
  | _ => none

/-- The thread holds the mutex. -/
def held (x : Option (Active Call Role)) : Bool := x.elim false fun a => a.role.holds

/-- The condition the thread waits for. -/
def waitsFor (x : Option (Active Call Role)) : Option Cond := x.bind fun a => a.role.waits

/-- The mutex is held by the thread whose role says so, and who sleeps is inside its wait. -/
structure Mutual (m : BMem Tid) (R : BRoles Tid) : Prop where
  owner : ∀ t, m.mtx.owner = some t ↔ held (R t) = true
  asleep : ∀ t c, m.mtx.asleep t = some c → waitsFor (R t) = some c

namespace Mutual

variable {m m' : BMem Tid} {R : BRoles Tid} {t u : Tid} {y : Option (Active Call Role)}

theorem alone (h : Mutual m R) (ht : held (R t) = true) (hu : u ≠ t) : held (R u) = false := by
  rw [Bool.eq_false_iff]
  intro hheld
  have := ((h.owner t).2 ht).symm.trans ((h.owner u).2 hheld)
  exact hu (Option.some.inj this).symm

theorem free (h : Mutual m R) (hm : m.mtx.owner = none) (u : Tid) : held (R u) = false := by
  rw [Bool.eq_false_iff]
  intro hheld
  rw [(h.owner u).2 hheld] at hm
  cases hm

theorem awake (h : Mutual m R) (ht : waitsFor (R t) = none) : m.mtx.asleep t = none := by
  cases hs : m.mtx.asleep t with
  | none => rfl
  | some c =>
    rw [h.asleep t c hs] at ht
    cases ht

theorem wakes (h : Mutual m R) (howner : m'.mtx.owner = m.mtx.owner)
    (hw : m.mtx.Wakes m'.mtx) : Mutual m' R :=
  ⟨fun u => howner ▸ h.owner u, fun u c hu => h.asleep u c (hw.asleep hu)⟩

variable [DecidableEq Tid]

/-- A move that leaves the mutex and the conditions alone. -/
theorem keep (h : Mutual m R) (hm : m'.mtx = m.mtx) (hheld : held y = held (R t))
    (hwait : waitsFor y = waitsFor (R t)) : Mutual m' (Function.update R t y) := by
  refine ⟨fun u => ?_, fun u c hu => ?_⟩
  · rw [hm, h.owner]
    by_cases hut : u = t
    · subst hut
      rw [Function.update_self, hheld]
    · rw [Function.update_of_ne hut]
  · rw [hm] at hu
    have := h.asleep u c hu
    by_cases hut : u = t
    · subst hut
      rw [Function.update_self, hwait, this]
    · rw [Function.update_of_ne hut, this]

theorem lock (h : Mutual m R) (hawake : m.mtx.asleep t = none) (hl : m.mtx.Lock t m'.mtx)
    (hheld : held y = true) : Mutual m' (Function.update R t y) := by
  obtain ⟨hfree, hm⟩ := hl
  refine ⟨fun u => ?_, fun u c hu => ?_⟩
  · rw [hm]
    by_cases hut : u = t
    · subst hut
      simp [hheld]
    · rw [Function.update_of_ne hut, h.free hfree u]
      simp [Ne.symm hut]
  · rw [hm] at hu
    by_cases hut : u = t
    · subst hut
      rw [hawake] at hu
      cases hu
    · rw [Function.update_of_ne hut]
      exact h.asleep u c hu

theorem release (h : Mutual m R) (ht : held (R t) = true) (howner : m'.mtx.owner = none)
    (hheld : held y = false)
    (hasleep : ∀ u c, m'.mtx.asleep u = some c →
      (u = t ∧ waitsFor y = some c) ∨ (u ≠ t ∧ m.mtx.asleep u = some c)) :
    Mutual m' (Function.update R t y) := by
  refine ⟨fun u => ?_, fun u c hu => ?_⟩
  · rw [howner]
    by_cases hut : u = t
    · subst hut
      simp [hheld]
    · rw [Function.update_of_ne hut, h.alone ht hut]
      simp
  · rcases hasleep u c hu with ⟨rfl, hy⟩ | ⟨hut, hu⟩
    · rw [Function.update_self, hy]
    · rw [Function.update_of_ne hut, h.asleep u c hu]

end Mutual

variable {r : Ring SizeT}

section Moves

variable [DecidableEq Tid] {m m' : BMem Tid} {R : BRoles Tid} {t : Tid} {id : Nat} {a : Call}
  {l l' : Role} {o : Op} {x : o.Res} {v : Ret}

theorem Mutual.op (h : Mutual m R) (ht : R t = some ⟨id, a, l⟩) (hm : Trans r l o x l')
    (he : Exec t o m x m') : Mutual m' (Function.update R t (some ⟨id, a, l'⟩)) := by
  have hheld : held (R t) = l.holds := by rw [ht]; rfl
  have hwait : waitsFor (R t) = l.waits := by rw [ht]; rfl
  cases hm with
  | lock _ =>
    obtain ⟨mtx, hl, rfl⟩ := he
    exact h.lock (h.awake hwait) hl rfl
  | relock =>
    obtain ⟨mtx, ⟨hawake, hl⟩, rfl⟩ := he
    exact h.lock hawake hl rfl
  | @sleep c =>
    obtain rfl := he
    refine h.release hheld rfl rfl fun u c' hu => ?_
    by_cases hut : u = t
    · subst hut
      left
      have hc : c.needs = c' := by simpa [Monitor.sleep] using hu
      rw [← hc]
      exact ⟨rfl, rfl⟩
    · right
      exact ⟨hut, by simpa [Monitor.sleep, hut] using hu⟩
  | unlock =>
    obtain rfl := he
    refine h.release hheld rfl rfl fun u c' hu => .inr ⟨?_, hu⟩
    rintro rfl
    have := h.awake hwait
    rw [show m.mtx.asleep u = some c' from hu] at this
    cases this
  | signal =>
    obtain ⟨mtx, hs, rfl⟩ := he
    have hw : Mutual { m with mtx := mtx } R := h.wakes hs.1 hs.wakes
    exact hw.keep rfl hheld.symm hwait.symm
  | head | full _ | room _ | empty | some _ | pushSlot | popSlot | copyOut _ | keepHead
  | keepTail _ | loadHead | loadTail =>
    obtain ⟨-, rfl⟩ := he
    exact h.keep rfl hheld.symm hwait.symm
  | copyIn _ | publish | giveBack =>
    obtain rfl := he
    exact h.keep rfl hheld.symm hwait.symm

theorem Mutual.ret (h : Mutual m R) (ht : R t = some ⟨id, a, l⟩) (hf : (proto r).final l v) :
    Mutual m (Function.update R t none) := by
  refine h.keep rfl ?_ ?_
  · rw [ht]
    cases l <;> first | rfl | exact hf.elim
  · rw [ht]
    cases l <;> first | rfl | exact hf.elim

theorem Mutual.env (h : Mutual m R) (he : Env m m') : Mutual m' R := by
  obtain ⟨mtx, hw, rfl⟩ := he
  exact h.wakes (by obtain ⟨u, -, rfl⟩ := hw; rfl) hw.wakes

end Moves

theorem mutual_init {m : BMem Tid} (hm : m.mtx = .new) : Mutual m fun _ => none :=
  ⟨fun t => by simp [hm, Monitor.new, held], fun t c h => by simp [hm, Monitor.new] at h⟩

theorem mutual_inductive [DecidableEq Tid] {m₀ : BMem Tid} (hm : m₀.mtx = .new) :
    Inductive (proto r) (sys r Tid) m₀ fun _ m R => Mutual m R where
  init _ := mutual_init hm
  call _ _ h ht _ _ := h.keep rfl (by rw [ht]; rfl) (by rw [ht]; rfl)
  op _ _ h ht hm he _ := h.op ht hm he
  ret _ _ h ht hf _ := h.ret ht hf
  env _ h he _ := h.env he

/-! ## The history as a queue -/

/-- The pushes that have advanced `head_`, in their order. -/
abbrev pushClaims (tr : List (Ev Tid)) : List (Claim Tid Call SizeT) := claims putHead tr

/-- The pops that have advanced `tail_`, in their order. -/
abbrev popClaims (tr : List (Ev Tid)) : List (Claim Tid Call SizeT) := claims putTail tr

/-- The elements pushed. -/
def queue (tr : List (Ev Tid)) : List Elem := (pushClaims tr).map (·.call.elem)

/-- The number of elements popped. -/
def pops (tr : List (Ev Tid)) : Nat := (popClaims tr).length

variable {tr tr' : List (Ev Tid)} {m m' : BMem Tid} {R : BRoles Tid} {t : Tid} {id : Nat}
  {c : Call} {l l' : Role} {o : Op} {x : o.Res}

theorem queue_append (tr tr' : List (Ev Tid)) : queue (tr ++ tr') = queue tr ++ queue tr' := by
  simp [queue]

theorem queue_same (h : pushClaims tr' = pushClaims tr) : queue tr' = queue tr := by
  rw [queue, h, queue]

theorem queue_snoc {d : Claim Tid Call SizeT} (h : pushClaims tr' = pushClaims tr ++ [d]) :
    queue tr' = queue tr ++ [d.call.elem] := by
  rw [queue, h, List.map_append]
  rfl

/-! ## The calls in progress -/

/-- The position the call has published. -/
def Role.pushPos : Role → Option SizeT
  | .signalling (.push _) _ q _ | .unlocking (.push _) _ q _ | .done (.push _) _ q _ => some q
  | _ => none

/-- The position the call has given back. -/
def Role.popPos : Role → Option SizeT
  | .signalling (.pop _) _ q _ | .unlocking (.pop _) _ q _ | .done (.pop _) _ q _ => some q
  | _ => none

/-- The number of bytes a call leaves in its caller's buffer. -/
def Call.outSize : Call → Nat
  | .push _ => 0
  | .pop size => size

/-- The role is one of call `c`. -/
def Role.Of (n : Nat) (c : Call) : Role → Prop
  | .start c' => c' = c
  | .locked c' | .sawHead c' _ | .mustWait c' | .waiting c' | .ready c' | .copying c' _ _ _ =>
    c' = c ∧ c.size ≤ n
  | .kept c' _ bs | .advancing c' _ _ bs | .signalling c' _ _ bs | .unlocking c' _ _ bs
  | .done c' _ _ bs => c' = c ∧ c.size ≤ n ∧ bs.length = c.outSize

theorem Role.of_trans (hm : Trans r l o x l') (h : l.Of r.objSize c) : l'.Of r.objSize c := by
  cases hm with
  | lock hsize =>
    obtain rfl := h
    exact ⟨rfl, hsize⟩
  | keepHead =>
    obtain ⟨rfl, hsize⟩ := h
    exact ⟨rfl, hsize, rfl⟩
  | keepTail hlen =>
    obtain ⟨rfl, hsize⟩ := h
    exact ⟨rfl, hsize, hlen⟩
  | _ => exact h

/-- Which claims belong to which call, and which call each role is of. -/
structure Known (r : Ring SizeT) (tr : List (Ev Tid)) (R : BRoles Tid) : Prop where
  push : Once putHead Role.pushPos tr R
  pop : Once putTail Role.popPos tr R
  role : ∀ t a, R t = some a → a.role.Of r.objSize a.call

theorem known_inductive [DecidableEq Tid] {m₀ : BMem Tid} :
    Inductive (proto r) (sys r Tid) m₀ fun tr _ R => Known r tr R := by
  have hpush : Inductive (proto r) (sys r Tid) m₀ fun tr _ R => Once putHead Role.pushPos tr R := by
    refine once_inductive putHead Role.pushPos (fun _ => rfl) (fun hm ho => ?_) (fun hm ho => ?_)
    · cases hm with
      | publish => cases ho
      | @signal c => cases c <;> rfl
      | @unlock c => cases c <;> rfl
      | _ => rfl
    · cases hm <;> cases ho
      exact ⟨rfl, congrArg some (BitVec.add_sub_cancel ..).symm⟩
  have hpop : Inductive (proto r) (sys r Tid) m₀ fun tr _ R => Once putTail Role.popPos tr R := by
    refine once_inductive putTail Role.popPos (fun _ => rfl) (fun hm ho => ?_) (fun hm ho => ?_)
    · cases hm with
      | giveBack => cases ho
      | @signal c => cases c <;> rfl
      | @unlock c => cases c <;> rfl
      | _ => rfl
    · cases hm <;> cases ho
      exact ⟨rfl, congrArg some (BitVec.add_sub_cancel ..).symm⟩
  have hrole : Inductive (proto r) (sys r Tid) m₀ fun _ _ R =>
      ∀ t a, R t = some a → a.role.Of r.objSize a.call :=
    roles_inductive (fun c l => Role.Of r.objSize c l) (fun _ => rfl) Role.of_trans
  exact (hpush.both (hpop.both hrole)).congr fun tr s R =>
    ⟨fun h => ⟨h.1, h.2.1, h.2.2⟩, fun h => ⟨h.push, h.pop, h.role⟩⟩

/-! ## What the calls know -/

/-- The call may go ahead, when the elements `q` have been pushed and `n` of them popped. -/
def Call.Ready (r : Ring SizeT) (q : List Elem) (n : Nat) : Call → Prop
  | .push _ => q.length < n + r.cap
  | .pop _ => n < q.length

/-- The counter the call advances. -/
def Call.counter (m : BMem Tid) : Call → SizeT
  | .push _ => m.head
  | .pop _ => m.tail

/-- How far the copy has come: a push has written `j` bytes, a pop has read `bs`. -/
def Call.HasCopied (r : Ring SizeT) (buffer : Nat → Byte) (q : List Elem) (n j : Nat)
    (bs : List Byte) : Call → Prop
  | .push args => Copied r buffer q.length (.ofList (args.take j))
  | .pop _ => ∃ e, q[n]? = some e ∧ Agree bs e

/-- What a call will return: a pop that was number `k` has the bytes of element `k`. -/
def Call.Result (q : List Elem) (pc : List (Claim Tid Call SizeT)) (t : Tid) (id : Nat) (p : SizeT)
    (bs : List Byte) : Call → Prop
  | .push _ => True
  | .pop size => ∃ (k : Nat) (e : Elem), pc[k]? = some (Claim.mk t id (.pop size) p) ∧
    q[k]? = some e ∧ Agree bs e

/-- What a thread knows by its role, when the elements `q` have been pushed and `pc` are the
pops. Only the holder of the mutex knows of the counters and the slots. -/
def Knows (r : Ring SizeT) (q : List Elem) (pc : List (Claim Tid Call SizeT)) (m : BMem Tid)
    (t : Tid) (id : Nat) : Role → Prop
  | .sawHead _ h => h = m.head
  | .mustWait c => ¬ c.Ready r q pc.length
  | .ready c => c.Ready r q pc.length
  | .copying c p j bs =>
    p = c.counter m ∧ c.Ready r q pc.length ∧ c.HasCopied r m.buffer q pc.length j bs
  | .kept c p bs =>
    p = c.counter m ∧ c.Ready r q pc.length ∧ c.HasCopied r m.buffer q pc.length c.size bs
  | .advancing c p p' bs => p = c.counter m ∧ p' = c.counter m ∧ c.Ready r q pc.length ∧
    c.HasCopied r m.buffer q pc.length c.size bs
  | .signalling c p p' bs | .unlocking c p p' bs | .done c p p' bs =>
    p = p' ∧ c.Result q pc t id p bs
  | _ => True

/-- What the history says of the memory. -/
structure RingState (r : Ring SizeT) (tr : List (Ev Tid)) (m : BMem Tid) : Prop where
  head : m.head = word (queue tr).length
  tail : m.tail = word (pops tr)
  pushPos : InOrder word (pushClaims tr)
  popPos : InOrder word (popClaims tr)
  le : pops tr ≤ (queue tr).length
  room : (queue tr).length ≤ pops tr + r.cap
  stored : Stored r m.buffer 0 (queue tr) (pops tr)

/-- The invariant of the ring. -/
structure BlockInv (r : Ring SizeT) (tr : List (Ev Tid)) (m : BMem Tid) (R : BRoles Tid) : Prop
    extends RingState r tr m where
  know : ∀ t a, R t = some a → Knows r (queue tr) (popClaims tr) m t a.id a.role

theorem Call.Result.append {q : List Elem} {pc : List (Claim Tid Call SizeT)} {p : SizeT}
    {bs : List Byte} (h : c.Result q pc t id p bs) (q' : List Elem)
    (pc' : List (Claim Tid Call SizeT)) : c.Result (q ++ q') (pc ++ pc') t id p bs := by
  cases c with
  | push args => trivial
  | pop size =>
    obtain ⟨k, e, hk, he, hagree⟩ := h
    refine ⟨k, e, ?_, ?_, hagree⟩
    · rw [List.getElem?_append_left (List.getElem?_eq_some_iff.1 hk).1, hk]
    · rw [List.getElem?_append_left (List.getElem?_eq_some_iff.1 he).1, he]

/-- What a thread outside the mutex knows stays true, whatever the holder does. -/
theorem Knows.stable {q : List Elem} {pc : List (Claim Tid Call SizeT)}
    (h : Knows r q pc m t id l) (hl : l.holds = false) (q' : List Elem)
    (pc' : List (Claim Tid Call SizeT)) : Knows r (q ++ q') (pc ++ pc') m' t id l := by
  cases l with
  | start c => trivial
  | waiting c => trivial
  | done c p p' bs => exact ⟨h.1, h.2.append q' pc'⟩
  | _ => cases hl

theorem Knows.mtx {q : List Elem} {pc : List (Claim Tid Call SizeT)} {mtx : Monitor Cond Tid}
    (h : Knows r q pc m t id l) : Knows r q pc { m with mtx := mtx } t id l := by
  cases l with
  | copying c | kept c | advancing c => cases c <;> exact h
  | _ => exact h

/-! ## The moves -/

namespace RingState

/-- A move that advances no counter. -/
theorem same (h : RingState r tr m) (hpush : pushClaims tr' = pushClaims tr)
    (hpop : popClaims tr' = popClaims tr) (hhead : m'.head = m.head) (htail : m'.tail = m.tail)
    (hbuf : Stored r m'.buffer 0 (queue tr) (pops tr)) : RingState r tr' m' := by
  have hq : queue tr' = queue tr := queue_same hpush
  have hn : pops tr' = pops tr := congrArg List.length hpop
  refine ⟨?_, ?_, hpush ▸ h.pushPos, hpop ▸ h.popPos, ?_, ?_, ?_⟩
  · rw [hhead, hq, h.head]
  · rw [htail, hn, h.tail]
  · rw [hq, hn]; exact h.le
  · rw [hq, hn]; exact h.room
  · rw [hq, hn]; exact hbuf

theorem addr_head (h : RingState r tr m) :
    r.addr (m.head &&& r.mask) = r.base (queue tr).length := by
  rw [h.head, r.addr_word]

theorem addr_tail (h : RingState r tr m) : r.addr (m.tail &&& r.mask) = r.base (pops tr) := by
  rw [h.tail, r.addr_word]

theorem full_iff (h : RingState r tr m) :
    m.head - m.tail ≥ r.objNum ↔ ¬ (queue tr).length < pops tr + r.cap := by
  have hroom := h.room
  rw [h.head, h.tail, Ring.full_iff r h.le hroom]
  omega

theorem empty_iff (h : RingState r tr m) :
    m.head = m.tail ↔ ¬ pops tr < (queue tr).length := by
  have hle := h.le
  rw [h.head, h.tail, Ring.empty_iff r hle h.room]
  omega

theorem write (h : RingState r tr m) (hroom : (queue tr).length < pops tr + r.cap) {j : Nat}
    (hj : j < r.objSize) (b : Byte) :
    Stored r (Function.update m.buffer (r.base (queue tr).length + j) b) 0 (queue tr)
      (pops tr) := by
  have hw := h.stored.write (b := b) hroom hj
  rwa [Nat.zero_add] at hw

theorem read (h : RingState r tr m) {e : Elem} (he : (queue tr)[pops tr]? = some e) {j : Nat}
    (hj : j < r.objSize) {y : Byte} (hy : e j = some y) : m.buffer (r.base (pops tr) + j) = y := by
  have hs := h.stored (pops tr) e le_rfl he
  rw [Nat.zero_add] at hs
  exact hs j y hj hy

theorem setHead (h : RingState r tr m) {d : Claim Tid Call SizeT}
    (hpush : pushClaims tr' = pushClaims tr ++ [d]) (hpop : popClaims tr' = popClaims tr)
    (hpos : d.pos = m.head) (hroom : (queue tr).length < pops tr + r.cap)
    (hfill : Copied r m.buffer (queue tr).length d.call.elem) :
    RingState r tr' { m with head := m.head + 1 } := by
  have hq : queue tr' = queue tr ++ [d.call.elem] := queue_snoc hpush
  have hn : pops tr' = pops tr := congrArg List.length hpop
  have hlen : (queue tr').length = (queue tr).length + 1 := by
    rw [hq, List.length_append, List.length_singleton]
  have hle := h.le
  refine ⟨?_, ?_, ?_, hpop ▸ h.popPos, by omega, by omega, ?_⟩
  · show m.head + 1 = _
    rw [h.head, hlen, word_succ]
  · rw [hn]; exact h.tail
  · rw [hpush]
    refine h.pushPos.snoc ?_
    rw [hpos, h.head, queue, List.length_map]
  · rw [hq, hn]
    refine h.stored.push ?_
    rwa [Nat.zero_add]

theorem setTail (h : RingState r tr m) {d : Claim Tid Call SizeT}
    (hpush : pushClaims tr' = pushClaims tr) (hpop : popClaims tr' = popClaims tr ++ [d])
    (hpos : d.pos = m.tail) (hsome : pops tr < (queue tr).length) :
    RingState r tr' { m with tail := m.tail + 1 } := by
  have hq : queue tr' = queue tr := queue_same hpush
  have hn : pops tr' = pops tr + 1 := by
    rw [pops, hpop, List.length_append, List.length_singleton, pops]
  have hroom := h.room
  refine ⟨?_, ?_, hpush ▸ h.pushPos, ?_, by rw [hq]; omega, by rw [hq]; omega, ?_⟩
  · rw [hq]; exact h.head
  · show m.tail + 1 = _
    rw [h.tail, hn, word_succ]
  · rw [hpop]
    refine h.popPos.snoc ?_
    rw [hpos, h.tail, pops]
  · rw [hq, hn]; exact h.stored.pop

end RingState

section Moves

variable [DecidableEq Tid]

/-- A move of a thread while nobody else holds the mutex. -/
theorem BlockInv.move (h : BlockInv r tr m R) (hother : ∀ u, u ≠ t → held (R u) = false)
    {e : Ev Tid} (hs : RingState r (tr ++ [e]) m')
    (hl' : Knows r (queue (tr ++ [e])) (popClaims (tr ++ [e])) m' t id l') :
    BlockInv r (tr ++ [e]) m' (Function.update R t (some ⟨id, c, l'⟩)) := by
  refine ⟨hs, fun u a hu => ?_⟩
  rcases update_some_iff.1 hu with ⟨rfl, hy⟩ | ⟨hne, hu⟩
  · obtain rfl := Option.some.inj hy
    exact hl'
  · have hfree := hother u hne
    rw [hu] at hfree
    rw [queue_append, popClaims, claims_append]
    exact (h.know u a hu).stable hfree _ _

theorem BlockInv.idle (h : BlockInv r tr m R) {e : Ev Tid}
    (hpush : pushClaims (tr ++ [e]) = pushClaims tr) (hpop : popClaims (tr ++ [e]) = popClaims tr)
    {y : Option (Active Call Role)} (hy : ∀ b, y = some b → ∃ c, b.role = .start c) :
    BlockInv r (tr ++ [e]) m (Function.update R t y) := by
  refine ⟨h.same hpush hpop rfl rfl h.stored, fun u a hu => ?_⟩
  rw [queue_same hpush, hpop]
  rcases update_some_iff.1 hu with ⟨-, hb⟩ | ⟨-, hu⟩
  · obtain ⟨c, hc⟩ := hy a hb
    rw [hc]
    trivial
  · exact h.know u a hu

/-- Whoever performs an operation is alone in the mutex, or it is free. -/
theorem Mutual.others (h : Mutual m R) (ht : R t = some ⟨id, c, l⟩) (hm : Trans r l o x l')
    (he : Exec t o m x m') : ∀ u, u ≠ t → held (R u) = false := by
  have hheld : held (R t) = l.holds := by rw [ht]; rfl
  intro u hu
  cases hm with
  | lock _ =>
    obtain ⟨mtx, ⟨hfree, -⟩, -⟩ := he
    exact h.free hfree u
  | relock =>
    obtain ⟨mtx, ⟨-, hfree, -⟩, -⟩ := he
    exact h.free hfree u
  | _ => exact h.alone hheld hu

theorem blockInv_op (hk : Known r tr R) (hmut : Mutual m R) (h : BlockInv r tr m R)
    (ht : R t = some ⟨id, c, l⟩) (hm : Trans r l o x l') (he : Exec t o m x m') :
    BlockInv r (tr ++ [.op t id c o x]) m' (Function.update R t (some ⟨id, c, l'⟩)) := by
  have hof := hk.role t _ ht
  have hknow := h.know t _ ht
  have hother := hmut.others ht hm he
  -- What all moves but the two stores of a counter share.
  have quiet (h₁ : putHead o x = none) (h₂ : putTail o x = none) (hhead : m'.head = m.head)
      (htail : m'.tail = m.tail) (hbuf : Stored r m'.buffer 0 (queue tr) (pops tr))
      (hl' : Knows r (queue tr) (popClaims tr) m' t id l') :
      BlockInv r (tr ++ [.op t id c o x]) m' (Function.update R t (some ⟨id, c, l'⟩)) := by
    have hpush : pushClaims (tr ++ [.op t id c o x]) = pushClaims tr := claims_snoc_none h₁
    have hpop : popClaims (tr ++ [.op t id c o x]) = popClaims tr := claims_snoc_none h₂
    refine h.move hother (h.same hpush hpop hhead htail hbuf) ?_
    rw [queue_same hpush, hpop]
    exact hl'
  cases hm with
  | lock _ =>
    obtain ⟨mtx, -, rfl⟩ := he
    exact quiet rfl rfl rfl rfl h.stored trivial
  | head =>
    obtain ⟨rfl, rfl⟩ := he
    exact quiet rfl rfl rfl rfl h.stored rfl
  | @full args h' d hfull =>
    obtain ⟨rfl, rfl⟩ := he
    obtain rfl : h' = m'.head := hknow
    exact quiet rfl rfl rfl rfl h.stored (h.full_iff.1 hfull)
  | @room args h' d hroom =>
    obtain ⟨rfl, rfl⟩ := he
    obtain rfl : h' = m'.head := hknow
    exact quiet rfl rfl rfl rfl h.stored (not_not.1 fun hn => hroom (h.full_iff.2 hn))
  | @empty size h' =>
    obtain ⟨rfl, rfl⟩ := he
    have hh : m'.tail = m'.head := hknow
    exact quiet rfl rfl rfl rfl h.stored (h.empty_iff.1 hh.symm)
  | @some size h' d hne =>
    obtain ⟨rfl, rfl⟩ := he
    obtain rfl : h' = m'.head := hknow
    exact quiet rfl rfl rfl rfl h.stored (not_not.1 fun hn => hne (h.empty_iff.2 hn))
  | sleep =>
    obtain rfl := he
    exact quiet rfl rfl rfl rfl h.stored trivial
  | relock =>
    obtain ⟨mtx, -, rfl⟩ := he
    exact quiet rfl rfl rfl rfl h.stored trivial
  | pushSlot =>
    obtain ⟨rfl, rfl⟩ := he
    refine quiet rfl rfl rfl rfl h.stored ⟨rfl, hknow, ?_⟩
    show Copied r _ _ (Elem.ofList [])
    rw [Elem.ofList_nil]
    exact .none
  | popSlot =>
    obtain ⟨rfl, rfl⟩ := he
    have hlt : pops tr < (queue tr).length := hknow
    exact quiet rfl rfl rfl rfl h.stored ⟨rfl, hlt, _, List.getElem?_eq_getElem hlt, .nil⟩
  | @copyIn args h' j b hb =>
    obtain rfl := he
    obtain ⟨rfl, hsize⟩ := hof
    obtain ⟨rfl, hroom, hcopied⟩ := hknow
    have hj : j < r.objSize := Nat.lt_of_lt_of_le (List.getElem?_eq_some_iff.1 hb).1 hsize
    rw [show r.addr (Call.counter m (.push args) &&& r.mask) = r.base (queue tr).length
      from h.addr_head] at quiet ⊢
    refine quiet rfl rfl rfl rfl (h.write hroom hj b) ⟨rfl, hroom, ?_⟩
    show Copied r _ _ (Elem.ofList (args.take (j + 1)))
    rw [Elem.ofList_take_succ hb]
    exact hcopied.put
  | @copyOut size d bs b hlt =>
    obtain ⟨rfl, rfl⟩ := he
    obtain ⟨rfl, hsize⟩ := hof
    obtain ⟨rfl, hsome, e, hget, hagree⟩ := hknow
    refine quiet rfl rfl rfl rfl h.stored ⟨rfl, hsome, e, hget, hagree.snoc fun y hy => ?_⟩
    rw [show r.addr (Call.counter m' (.pop size) &&& r.mask) = r.base (pops tr)
      from h.addr_tail]
    exact h.read hget (Nat.lt_of_lt_of_le hlt hsize) hy
  | keepHead =>
    obtain ⟨rfl, rfl⟩ := he
    exact quiet rfl rfl rfl rfl h.stored ⟨rfl, hknow.2⟩
  | keepTail _ =>
    obtain ⟨rfl, rfl⟩ := he
    exact quiet rfl rfl rfl rfl h.stored ⟨rfl, hknow.2⟩
  | loadHead =>
    obtain ⟨rfl, rfl⟩ := he
    exact quiet rfl rfl rfl rfl h.stored ⟨hknow.1, rfl, hknow.2⟩
  | loadTail =>
    obtain ⟨rfl, rfl⟩ := he
    exact quiet rfl rfl rfl rfl h.stored ⟨hknow.1, rfl, hknow.2⟩
  | @publish args p h' =>
    obtain rfl := he
    obtain ⟨rfl, -⟩ := hof
    obtain ⟨rfl, rfl, hroom, hcopied⟩ := hknow
    have hfill : Copied r m.buffer (queue tr).length (Call.elem (.push args)) := by
      have hall : Copied r m.buffer (queue tr).length (.ofList (args.take args.length)) := hcopied
      rwa [List.take_length] at hall
    exact h.move hother (h.setHead (claims_snoc_some rfl) (claims_snoc_none rfl)
      (BitVec.add_sub_cancel ..) hroom hfill) ⟨rfl, trivial⟩
  | @giveBack size p d bs =>
    obtain rfl := he
    obtain ⟨rfl, -⟩ := hof
    obtain ⟨rfl, rfl, hsome, e, hget, hagree⟩ := hknow
    have hpop : popClaims (tr ++ [.op t id (.pop size) (.setTail (m.tail + 1)) ()]) =
        popClaims tr ++ [⟨t, id, .pop size, m.tail + 1 - 1⟩] := claims_snoc_some rfl
    have hpush : pushClaims (tr ++ [.op t id (.pop size) (.setTail (m.tail + 1)) ()]) =
        pushClaims tr := claims_snoc_none rfl
    rw [BitVec.add_sub_cancel] at hpop
    refine h.move hother (h.setTail hpush hpop rfl hsome) ⟨rfl, pops tr, e, ?_, ?_, hagree⟩
    · show (popClaims (tr ++ [.op t id (.pop size) (.setTail (m.tail + 1)) ()]))[pops tr]? = _
      rw [hpop, pops, List.getElem?_concat_length]
      rfl
    · show (queue (tr ++ [.op t id (.pop size) (.setTail (m.tail + 1)) ()]))[pops tr]? = _
      rw [queue_same hpush]
      exact hget
  | signal =>
    obtain ⟨mtx, -, rfl⟩ := he
    exact quiet rfl rfl rfl rfl h.stored hknow
  | unlock =>
    obtain rfl := he
    exact quiet rfl rfl rfl rfl h.stored hknow

end Moves

/-! ## Every run -/

theorem blockInv_start (m : BMem Tid) : BlockInv r [] (getBlockBuf m) fun _ => none :=
  ⟨⟨rfl, rfl, .nil, .nil, Nat.zero_le _, Nat.zero_le _, .nil⟩, by simp⟩

/-- What holds of every state that a run reaches. -/
structure Inv (r : Ring SizeT) (tr : List (Ev Tid)) (m : BMem Tid) (R : BRoles Tid) : Prop where
  known : Known r tr R
  mutex : Mutual m R
  ring : BlockInv r tr m R

/-- **The invariant** holds along every run, of any length. -/
theorem inv_inductive [DecidableEq Tid] (m₀ : BMem Tid) :
    Inductive (proto r) (sys r Tid) (getBlockBuf m₀) fun tr m R => Inv r tr m R := by
  have hbase : Inductive (proto r) (sys r Tid) (getBlockBuf m₀) fun tr m R =>
      Known r tr R ∧ Mutual m R := known_inductive.both (mutual_inductive rfl)
  have hring : InductiveUnder (proto r) (sys r Tid) (getBlockBuf m₀)
      (fun tr m R => Known r tr R ∧ Mutual m R) fun tr m R => BlockInv r tr m R := {
    init := fun _ => blockInv_start m₀
    call := fun _ _ h _ _ _ =>
      h.idle claims_snoc_call claims_snoc_call (by rintro _ ⟨⟩; exact ⟨_, rfl⟩)
    op := fun _ hA h ht hm he _ => blockInv_op hA.1 hA.2 h ht hm he
    ret := fun _ _ h _ _ _ => h.idle claims_snoc_ret claims_snoc_ret (by simp)
    env := fun _ h he _ => by
      obtain ⟨mtx, -, rfl⟩ := he
      exact ⟨h.same rfl rfl rfl rfl h.stored, fun u a hu => (h.know u a hu).mtx⟩ }
  exact (hbase.and hring).congr fun tr m R =>
    ⟨fun h => ⟨h.1.1, h.1.2, h.2⟩, fun h => ⟨⟨h.known, h.mutex⟩, h.ring⟩⟩

end Block

end RingBuf
