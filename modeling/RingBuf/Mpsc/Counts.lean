import RingBuf.Mpsc.Fifo
import RingBuf.Window

/-!
# Mpsc counters that wrap

The slot discipline of `RingBuf.Mpsc.Marks` once more, now on the numbers of the pushes and pops
so far, of which the counters are the words in every run (`words_inductive`). All that is asked of
a run for the discipline is that no push sleeps between its load of `head_` and its
compare-exchange while `2 ^ 64` others succeed (`Timely`, `counted_inductive`).
-/

namespace RingBuf

open Conc Word LawfulWord

namespace Mpsc

variable {Tid : Type} {r : Ring SizeT} {tr tr' : List (Ev Tid r.objSize)}
  {m m' : Mem SizeT Tid} {R : MRoles Tid r.objSize} {t : Tid} {id : Nat} {c : Call r.objSize}
  {l l' : Role r.objSize} {o : Op SizeT} {x : o.Res}

/-- No push takes its position after `2 ^ 64` or more others since it loaded the head. -/
def Timely {n : Nat} (tr : List (Ev Tid n)) : Prop :=
  ∀ tr₁ tr₂ tr₃ t id c h d, tr = tr₁ ++ .op t id c .loadHead h :: tr₂ ++
    .op t id c (.casHead h d) true :: tr₃ → (pushClaims tr₂).length < 2 ^ 64

theorem Timely.of_append {n : Nat} {tr tr' : List (Ev Tid n)} (h : Timely (tr ++ tr')) :
    Timely tr := by
  intro tr₁ tr₂ tr₃ t id c x d htr
  refine h tr₁ tr₂ (tr₃ ++ tr') t id c x d ?_
  rw [htr]
  simp

theorem timely_of_lt {n : Nat} {tr : List (Ev Tid n)} (h : (pushClaims tr).length < 2 ^ 64) :
    Timely tr := by
  intro tr₁ tr₂ tr₃ t id c x d htr
  rw [htr, pushClaims, claims_append, List.length_append, length_claims_insert rfl] at h
  show (claims takeHead tr₂).length < 2 ^ 64
  omega

/-! ## The counters -/

/-- The tail that a pop in progress has read. -/
def Role.tailRead {n : Nat} : Role n → Option SizeT
  | .popTail _ d | .popCache _ d | .popHead _ d _ | .popSlot _ d | .draining _ d _
  | .cleared _ d _ => some d
  | _ => none

/-- The counters are the words of the numbers of pushes and pops, and the tail that a pop has read
is current. -/
structure Words (r : Ring SizeT) (tr : List (Ev Tid r.objSize)) (m : Mem SizeT Tid)
    (R : MRoles Tid r.objSize) : Prop where
  head : m.head = word (pushClaims tr).length
  tail : m.tail = word (popClaims tr).length
  read : ∀ t a d, R t = some a → a.role.tailRead = some d → d = m.tail

theorem pops_of_tailRead {d : SizeT} (hof : l.Of c) (h : l.tailRead = some d) : c.pops = true := by
  cases l with
  | popTail => exact hof.2
  | popCache => exact hof.2
  | popHead => exact hof.2
  | popSlot => exact hof.2
  | draining => exact hof.2
  | cleared => exact hof.2.1
  | _ => cases h

variable [DecidableEq Tid] {m₀ : Mem SizeT Tid}

theorem Words.same {y : Option (Active (Call r.objSize) (Role r.objSize))} (hw : Words r tr m R)
    (hpush : pushClaims tr' = pushClaims tr) (hpop : popClaims tr' = popClaims tr)
    (hh : m'.head = m.head) (ht : m'.tail = m.tail)
    (hy : ∀ b d, y = some b → b.role.tailRead = some d → d = m.tail) :
    Words r tr' m' (Function.update R t y) where
  head := by rw [hh, hpush]; exact hw.head
  tail := by rw [ht, hpop]; exact hw.tail
  read u a d hu hd := by
    rw [ht]
    rcases update_some_iff.1 hu with ⟨-, ha⟩ | ⟨-, ha⟩
    · exact hy a d ha hd
    · exact hw.read u a d ha hd

theorem words_op (hk : Known tr R) (hw : Words r tr m R) (ht : R t = some ⟨id, c, l⟩)
    (hm : Trans r l o x l') (he : exec t o m = (x, m')) :
    Words r (tr ++ [.op t id c o x]) m' (Function.update R t (some ⟨id, c, l'⟩)) := by
  have hread : ∀ d, l.tailRead = some d → d = m.tail := fun d hd => hw.read t _ d ht hd
  have same (hpush : takeHead o x = none) (hpop : putTail o x = none) (hh : m'.head = m.head)
      (ht : m'.tail = m.tail) (hl' : ∀ d, l'.tailRead = some d → d = m.tail) :
      Words r (tr ++ [.op t id c o x]) m' (Function.update R t (some ⟨id, c, l'⟩)) := by
    refine hw.same (claims_snoc_none hpush) (claims_snoc_none hpop) hh ht fun b d hb hd => ?_
    obtain rfl := Option.some.inj hb
    exact hl' d hd
  cases hm with
  | loadHead _ =>
    obtain ⟨-, rfl⟩ := Prod.mk.inj he
    exact same rfl rfl rfl rfl nofun
  | loadTail =>
    obtain ⟨-, rfl⟩ := Prod.mk.inj he
    exact same rfl rfl rfl rfl nofun
  | @claimHead args h d _ =>
    obtain ⟨rfl, rfl⟩ := exec_casHead he
    have hpush : pushClaims (tr ++ [.op t id c (.casHead m.head (m.head + 1)) true]) =
        pushClaims tr ++ [⟨t, id, c, m.head⟩] := claims_snoc_some rfl
    refine ⟨?_, ?_, fun u a d hu hd => ?_⟩
    · rw [hpush, List.length_append, List.length_singleton, ← word_succ, ← hw.head]
    · rw [popClaims, claims_snoc_none rfl]
      exact hw.tail
    · rcases update_some_iff.1 hu with ⟨-, ha⟩ | ⟨-, ha⟩
      · obtain rfl := Option.some.inj ha
        cases hd
      · exact hw.read u a d ha hd
  | missHead =>
    obtain rfl := exec_casHead_false he
    exact same rfl rfl rfl rfl nofun
  | copyIn _ =>
    obtain ⟨-, rfl⟩ := Prod.mk.inj he
    exact same rfl rfl rfl rfl nofun
  | publish =>
    obtain ⟨-, rfl⟩ := Prod.mk.inj he
    exact same rfl rfl rfl rfl nofun
  | others _ =>
    obtain ⟨-, rfl⟩ := Prod.mk.inj he
    exact same rfl rfl rfl rfl nofun
  | popTail _ _ =>
    obtain ⟨rfl, rfl⟩ := Prod.mk.inj he
    exact same rfl rfl rfl rfl fun _ hd => (Option.some.inj hd).symm
  | setEmpty =>
    obtain ⟨-, rfl⟩ := Prod.mk.inj he
    exact same rfl rfl rfl rfl nofun
  | refuse _ =>
    obtain ⟨-, rfl⟩ := Prod.mk.inj he
    exact same rfl rfl rfl rfl nofun
  | @advance c' d bs =>
    obtain ⟨-, rfl⟩ := Prod.mk.inj he
    obtain rfl : d = m.tail := hread d rfl
    have hpop : popClaims (tr ++ [.op t id c (.storeTail (m.tail + 1)) ()]) =
        popClaims tr ++ [⟨t, id, c, m.tail + 1 - 1⟩] := claims_snoc_some rfl
    refine ⟨?_, ?_, fun u a d hu hd => ?_⟩
    · rw [pushClaims, claims_snoc_none rfl]
      exact hw.head
    · rw [hpop, List.length_append, List.length_singleton, ← word_succ, ← hw.tail]
    · -- No other thread is in a pop.
      rcases update_some_iff.1 hu with ⟨-, ha⟩ | ⟨hne, ha⟩
      · obtain rfl := Option.some.inj ha
        cases hd
      · have hpops := pops_of_tailRead (hk.role u a ha) hd
        exact absurd (hk.one u t a _ ha ht hpops (hk.role t _ ht).2.1) hne
  | _ =>
    obtain ⟨-, rfl⟩ := Prod.mk.inj he
    exact same rfl rfl rfl rfl hread

/-- **The counters count**, in every run. -/
theorem words_inductive (hf : Fresh r m₀) :
    InductiveUnder (proto r) (sys r Tid) m₀ (fun tr _ R => Known tr R) fun tr m R =>
      Words r tr m R := by
  refine ⟨fun _ => ⟨hf.head, hf.tail, by simp⟩, fun _ _ hw _ _ _ => ?_,
    fun _ hk hw ht hm he _ => words_op hk hw ht hm he, fun _ _ hw _ _ _ => ?_,
    fun _ _ he => he.elim⟩
  · refine hw.same claims_snoc_call claims_snoc_call rfl rfl fun b d hb hd => ?_
    obtain rfl := Option.some.inj hb
    cases hd
  · exact hw.same claims_snoc_ret claims_snoc_ret rfl rfl nofun

/-! ## Positions -/

/-- The word of the position that a pop reads. -/
def Role.drainWord {n : Nat} : Role n → Option SizeT
  | .draining _ d _ => some d
  | _ => none

/-- The word of the position that a pop has cleared but not yet given back. -/
def Role.clearWord {n : Nat} : Role n → Option SizeT
  | .cleared _ d _ => some d
  | _ => none

/-- What a thread has in hand, when the tail stands at position `p`. -/
def inHand {n : Nat} (p : Nat) (has : Role n → Option SizeT) (R : MRoles Tid n) (t : Tid) :
    Option Nat :=
  (R t).bind fun a => (has a.role).map (ahead p)

/-- A state, with the head at position `q` and the tail at position `p`. -/
def marksAt {n : Nat} (q p : Nat) (m : Mem SizeT Tid) (R : MRoles Tid n) : Marks Tid where
  head := q
  tail := p
  valid i := m.slot i = slotValid
  fill := inHand p Role.writing R
  drain := inHand p Role.drainWord R
  cleared := inHand p Role.clearWord R

/-- What a push knows: since when it has known the head, which tail it has read since, and which
position it has claimed. -/
def KnowsAt (r : Ring SizeT) (tr : List (Ev Tid r.objSize)) (t : Tid) (id : Nat)
    (c : Call r.objSize) : Role r.objSize → Prop
  | .sawHead _ h => ∃ tr₁ tr₂, tr = tr₁ ++ .op t id c .loadHead h :: tr₂ ∧
    h = word (pushClaims tr₁).length ∧ (pushClaims tr₁).length ≤ (popClaims tr).length + r.cap
  | .sawTail _ h d => ∃ tr₁ tr₂ p, tr = tr₁ ++ .op t id c .loadHead h :: tr₂ ∧
    h = word (pushClaims tr₁).length ∧ d = word p ∧ p ≤ (popClaims tr).length ∧
    (pushClaims tr₁).length ≤ p + r.cap
  | .filling _ h _ => (pushClaims tr)[ahead (popClaims tr).length h]? = some ⟨t, id, c, h⟩
  | _ => True

/-- The slots follow the discipline on the numbers of pushes and pops. -/
structure Counted (r : Ring SizeT) (tr : List (Ev Tid r.objSize)) (m : Mem SizeT Tid)
    (R : MRoles Tid r.objSize) : Prop where
  word : ∀ i < r.cap, m.slot i = slotEmpty ∨ m.slot i = slotValid
  inv : (marksAt (pushClaims tr).length (popClaims tr).length m R).Inv r.cap
  knows : ∀ t a, R t = some a → KnowsAt r tr t a.id a.call a.role

omit [DecidableEq Tid] in
theorem Counted.le (hc : Counted r tr m R) : (popClaims tr).length ≤ (pushClaims tr).length :=
  hc.inv.tail_le

omit [DecidableEq Tid] in
theorem Counted.room (hc : Counted r tr m R) :
    (pushClaims tr).length ≤ (popClaims tr).length + r.cap := hc.inv.head_le

omit [DecidableEq Tid] in
/-- What a thread knows stays true while others move, unless they give a position back. -/
theorem KnowsAt.snoc {e : Ev Tid r.objSize} (h : KnowsAt r tr t id c l)
    (hpop : popClaims (tr ++ [e]) = popClaims tr) : KnowsAt r (tr ++ [e]) t id c l := by
  cases l with
  | sawHead args x =>
    obtain ⟨tr₁, tr₂, htr, hx, hle⟩ := h
    exact ⟨tr₁, tr₂ ++ [e], by rw [htr, List.append_assoc]; rfl, hx, by rw [hpop]; exact hle⟩
  | sawTail args x d =>
    obtain ⟨tr₁, tr₂, p, htr, hx, hd, hp, hle⟩ := h
    exact ⟨tr₁, tr₂ ++ [e], p, by rw [htr, List.append_assoc]; rfl, hx, hd,
      by rw [hpop]; exact hp, hle⟩
  | filling args x j =>
    show (pushClaims (tr ++ [e]))[ahead (popClaims (tr ++ [e])).length x]? = _
    rw [hpop, pushClaims, claims_append]
    exact List.getElem?_append_left (List.getElem?_eq_some_iff.1 h).1 ▸ h
  | _ => trivial

omit [DecidableEq Tid] in
/-- What a push knows stays true when the oldest position, which is not its own, is given back. -/
theorem KnowsAt.advance {e : Ev Tid r.objSize} {k : Claim Tid (Call r.objSize) SizeT}
    (h : KnowsAt r tr t id c l) (hpush : pushClaims (tr ++ [e]) = pushClaims tr)
    (hpop : popClaims (tr ++ [e]) = popClaims tr ++ [k])
    (hne : ∀ x, l.writing = some x → ahead (popClaims tr).length x ≠ (popClaims tr).length) :
    KnowsAt r (tr ++ [e]) t id c l := by
  have hlen : (popClaims (tr ++ [e])).length = (popClaims tr).length + 1 := by
    rw [hpop, List.length_append, List.length_singleton]
  cases l with
  | sawHead args x =>
    obtain ⟨tr₁, tr₂, htr, hx, hle⟩ := h
    exact ⟨tr₁, tr₂ ++ [e], by rw [htr, List.append_assoc]; rfl, hx, by omega⟩
  | sawTail args x d =>
    obtain ⟨tr₁, tr₂, p, htr, hx, hd, hp, hle⟩ := h
    exact ⟨tr₁, tr₂ ++ [e], p, by rw [htr, List.append_assoc]; rfl, hx, hd, by omega, hle⟩
  | filling args x j =>
    show (pushClaims (tr ++ [e]))[ahead (popClaims (tr ++ [e])).length x]? = _
    rw [hlen, ahead_succ (hne x rfl), hpush]
    exact h
  | _ => trivial

/-! ## States as marks -/

theorem inHand_update {n p : Nat} {has : Role n → Option SizeT} {R : MRoles Tid n}
    (y : Option (Active (Call n) (Role n))) :
    inHand p has (Function.update R t y) =
      Function.update (inHand p has R) t (y.bind fun a => (has a.role).map (ahead p)) := by
  funext u
  by_cases hu : u = t
  · subst hu
    rw [Function.update_self, inHand, Function.update_self]
  · rw [Function.update_of_ne hu, inHand, inHand, Function.update_of_ne hu]

theorem inHand_same {n p : Nat} {has : Role n → Option SizeT} {R : MRoles Tid n}
    {y : Option (Active (Call n) (Role n))}
    (h : (y.bind fun a => (has a.role).map (ahead p)) = inHand p has R t) :
    inHand p has (Function.update R t y) = inHand p has R := by
  rw [inHand_update, h, Function.update_eq_self]

theorem marksAt_update {n q p : Nat} {R : MRoles Tid n} {y : Option (Active (Call n) (Role n))}
    {s : Marks Tid} (hh : q = s.head) (ht : p = s.tail)
    (hv : ∀ i, decide (m'.slot i = slotValid) = s.valid i)
    (hf : inHand p Role.writing (Function.update R t y) = s.fill)
    (hd : inHand p Role.drainWord (Function.update R t y) = s.drain)
    (hc : inHand p Role.clearWord (Function.update R t y) = s.cleared) :
    marksAt q p m' (Function.update R t y) = s := by
  ext1
  · exact hh
  · exact ht
  · funext i
    exact hv i
  · exact hf
  · exact hd
  · exact hc

theorem marksAt_same {n q p : Nat} {R : MRoles Tid n} {y : Option (Active (Call n) (Role n))}
    (hs : m'.slot = m.slot)
    (hf : (y.bind fun a => a.role.writing.map (ahead p)) = inHand p Role.writing R t)
    (hd : (y.bind fun a => a.role.drainWord.map (ahead p)) = inHand p Role.drainWord R t)
    (hc : (y.bind fun a => a.role.clearWord.map (ahead p)) = inHand p Role.clearWord R t) :
    marksAt q p m' (Function.update R t y) = marksAt q p m R :=
  marksAt_update rfl rfl (fun i => by rw [hs]; rfl) (inHand_same hf) (inHand_same hd)
    (inHand_same hc)

theorem marksAt_claim {n q p : Nat} {R : MRoles Tid n} {c : Call n} {args : List Byte} {h : SizeT}
    (hd : inHand p Role.drainWord R t = none) (hc : inHand p Role.clearWord R t = none)
    (hh : ahead p h = q) (hs : m'.slot = m.slot) :
    marksAt (q + 1) p m' (Function.update R t (some ⟨id, c, .filling args h 0⟩)) =
      (marksAt q p m R).claim t := by
  refine marksAt_update rfl rfl (fun i => by rw [hs]; rfl) ?_ (inHand_same hd.symm)
    (inHand_same hc.symm)
  subst hh
  exact inHand_update _

theorem marksAt_mark {q p : Nat} {h : SizeT} (hd : inHand p Role.drainWord R t = none)
    (hc : inHand p Role.clearWord R t = none) :
    marksAt q p { m with slot := Function.update m.slot (toNat (h &&& r.mask)) slotValid }
        (Function.update R t (some ⟨id, c, .pushed h⟩)) =
      (marksAt q p m R).mark r.cap t (ahead p h) := by
  rw [r.toNat_and_mask_ahead p]
  exact marksAt_update rfl rfl (fun i => decide_update_slot ..) (inHand_update _)
    (inHand_same hd.symm) (inHand_same hc.symm)

theorem marksAt_accept {n q p : Nat} {R : MRoles Tid n} {c e : Call n} {d : SizeT}
    (hf : inHand p Role.writing R t = none) (hc : inHand p Role.clearWord R t = none)
    (hd : ahead p d = p) :
    marksAt q p m (Function.update R t (some ⟨id, c, .draining e d []⟩)) =
      (marksAt q p m R).accept t := by
  refine marksAt_update rfl rfl (fun _ => rfl) (inHand_same hf.symm) ?_ (inHand_same hc.symm)
  rw [inHand_update]
  exact congrArg (fun k => Function.update (inHand p Role.drainWord R) t (some k)) hd

theorem marksAt_clear {q p : Nat} {e : Call r.objSize} {d : SizeT} {bs : List Byte}
    (hf : inHand p Role.writing R t = none) :
    marksAt q p { m with slot := Function.update m.slot (toNat (d &&& r.mask)) slotEmpty }
        (Function.update R t (some ⟨id, c, .cleared e d bs⟩)) =
      (marksAt q p m R).clear r.cap t (ahead p d) := by
  rw [r.toNat_and_mask_ahead p]
  exact marksAt_update rfl rfl (fun i => decide_update_slot ..) (inHand_same hf.symm)
    (inHand_update _) (inHand_update _)

omit [DecidableEq Tid] in
theorem inHand_succ {n p : Nat} {has : Role n → Option SizeT} {R : MRoles Tid n}
    (h : ∀ u, inHand p has R u ≠ some p) : inHand (p + 1) has R = inHand p has R := by
  funext u
  cases hu : R u with
  | none => rw [inHand, inHand, hu]; rfl
  | some a =>
    rw [inHand, inHand, hu]
    cases ha : has a.role with
    | none => simp [ha]
    | some w =>
      have hne : ahead p w ≠ p := by
        intro hw
        apply h u
        rw [inHand, hu]
        simp [ha, hw]
      simp [ha, ahead_succ hne]

theorem marksAt_advance {n q p : Nat} {R : MRoles Tid n} {c e : Call n} {d : SizeT}
    {bs : List Byte} (hs : m'.slot = m.slot) (hf : inHand p Role.writing R t = none)
    (hd : inHand p Role.drainWord R t = none) (hfill : ∀ u, inHand p Role.writing R u ≠ some p)
    (hone : ∀ u ≠ t, inHand p Role.drainWord R u = none ∧ inHand p Role.clearWord R u = none) :
    marksAt q (p + 1) m' (Function.update R t (some ⟨id, c, .popped e d bs⟩)) =
      (marksAt q p m R).advance t := by
  -- Nobody has the position in hand that is given back.
  have free {has : Role n → Option SizeT} {f : Tid → Option Nat}
      (h : inHand p has (Function.update R t (some ⟨id, c, .popped e d bs⟩)) = f)
      (hne : ∀ u, f u ≠ some p) :
      inHand (p + 1) has (Function.update R t (some ⟨id, c, .popped e d bs⟩)) = f := by
    rw [← h]
    apply inHand_succ
    rw [h]
    exact hne
  refine marksAt_update rfl rfl (fun i => by rw [hs]; rfl) (free (inHand_same hf.symm) hfill)
    (free (inHand_same hd.symm) fun u => ?_) (free (inHand_update _) fun u => ?_)
  · show inHand p Role.drainWord R u ≠ some p
    by_cases hu : u = t
    · rw [hu, hd]
      nofun
    · rw [(hone u hu).1]
      nofun
  · show Function.update (inHand p Role.clearWord R) t none u ≠ some p
    by_cases hu : u = t
    · rw [hu, Function.update_self]
      nofun
    · rw [Function.update_of_ne hu, (hone u hu).2]
      nofun

/-! ## Every move keeps the discipline -/

omit [DecidableEq Tid] in
/-- While a pop is in progress, no other thread reads or clears a slot. -/
theorem inHand_of_pops (hk : Known tr R) (ht : R t = some ⟨id, c, l⟩) (hc : c.pops = true)
    (p : Nat) (u : Tid) (hu : u ≠ t) :
    inHand p Role.drainWord R u = none ∧ inHand p Role.clearWord R u = none := by
  cases hb : R u with
  | none => simp [inHand, hb]
  | some b =>
    have hnot : b.call.pops ≠ true := fun h => hu (hk.one u t b _ hb ht h hc)
    have hof := hk.role u b hb
    obtain ⟨j, e, k⟩ := b
    cases k with
    | draining => exact absurd hof.2 hnot
    | cleared => exact absurd hof.2.1 hnot
    | _ => simp [inHand, hb, Role.drainWord, Role.clearWord]

theorem Counted.same {e : Ev Tid r.objSize} {y : Option (Active (Call r.objSize) (Role r.objSize))}
    (hc : Counted r tr m R) (hpush : pushClaims (tr ++ [e]) = pushClaims tr)
    (hpop : popClaims (tr ++ [e]) = popClaims tr) (hslot : m'.slot = m.slot)
    (hs : marksAt (pushClaims tr).length (popClaims tr).length m' (Function.update R t y) =
      marksAt (pushClaims tr).length (popClaims tr).length m R)
    (hy : ∀ b, y = some b → KnowsAt r (tr ++ [e]) t b.id b.call b.role) :
    Counted r (tr ++ [e]) m' (Function.update R t y) where
  word := by rw [hslot]; exact hc.word
  inv := by rw [hpush, hpop, hs]; exact hc.inv
  knows u a hu := by
    rcases update_some_iff.1 hu with ⟨rfl, ha⟩ | ⟨-, ha⟩
    · exact hy a ha
    · exact (hc.knows u a ha).snoc hpop

/-- What the threads know after a move that gives no position back. -/
theorem knowsAt_update {e : Ev Tid r.objSize} {y : Active (Call r.objSize) (Role r.objSize)}
    (hc : Counted r tr m R) (hpop : popClaims (tr ++ [e]) = popClaims tr)
    (hy : KnowsAt r (tr ++ [e]) t y.id y.call y.role) (u : Tid)
    (a : Active (Call r.objSize) (Role r.objSize)) (hu : Function.update R t (some y) u = some a) :
    KnowsAt r (tr ++ [e]) u a.id a.call a.role := by
  rcases update_some_iff.1 hu with ⟨rfl, ha⟩ | ⟨-, ha⟩
  · obtain rfl := Option.some.inj ha
    exact hy
  · exact (hc.knows u a ha).snoc hpop

omit [DecidableEq Tid] in
/-- A push whose compare-exchange succeeds in time has loaded the current head, and there is
room. -/
theorem room_of_claim {args : List Byte} {h d : SizeT}
    (hb : Timely (tr ++ [.op t id c (.casHead h (h + 1)) true])) (hw : Words r tr m R)
    (hc : Counted r tr m R) (hknow : KnowsAt r tr t id c (.sawTail args h d)) (hh : m.head = h)
    (hfull : ¬ h - d ≥ r.objNum) : (pushClaims tr).length < (popClaims tr).length + r.cap := by
  obtain ⟨tr₁, tr₂, p, htr, hx, hd, hp, hle⟩ := hknow
  have hlen : (pushClaims tr).length = (pushClaims tr₁).length + (pushClaims tr₂).length := by
    rw [htr]
    exact length_claims_insert rfl
  have htime : (pushClaims tr₂).length < 2 ^ 64 := by
    refine hb tr₁ tr₂ [] t id c h (h + 1) ?_
    rw [htr]
  -- The head has the word it had when it was loaded.
  have hword : word (pushClaims tr).length = word (pushClaims tr₁).length := by
    rw [← hw.head, hh, hx]
  have heq := (word_inj (by omega) (by omega)).1 hword
  have htail := hc.le
  have hnot : (pushClaims tr₁).length ≠ p + r.cap := by
    intro h
    apply hfull
    rw [hx, hd]
    exact (r.full_iff (by omega) hle).2 h
  omega

theorem counted_op (hb : Timely (tr ++ [.op t id c o x])) (hk : Known tr R) (hw : Words r tr m R)
    (hc : Counted r tr m R) (ht : R t = some ⟨id, c, l⟩) (hm : Trans r l o x l')
    (he : exec t o m = (x, m')) :
    Counted r (tr ++ [.op t id c o x]) m' (Function.update R t (some ⟨id, c, l'⟩)) := by
  have hcap := r.two_le_cap
  have hcap' := r.cap_le
  have hof := hk.role t _ ht
  have hknow := hc.knows t _ ht
  have hroom := hc.room
  have hle := hc.le
  have hin (has : Role r.objSize → Option SizeT) :
      inHand (popClaims tr).length has R t = (has l).map (ahead (popClaims tr).length) := by
    rw [inHand, ht]
    rfl
  -- The tail that a pop has read stands at the number of pops.
  have hread {d : SizeT} (hd : l.tailRead = some d) :
      ahead (popClaims tr).length d = (popClaims tr).length := by
    rw [hw.read t _ d ht hd, hw.tail]
    exact ahead_word le_rfl (by omega)
  -- What all moves but the five of the discipline share.
  have same (hpush : takeHead o x = none) (hpop : putTail o x = none) (hs : m'.slot = m.slot)
      (hf : l'.writing = l.writing) (hd : l'.drainWord = l.drainWord)
      (hcl : l'.clearWord = l.clearWord) (hl' : KnowsAt r (tr ++ [.op t id c o x]) t id c l') :
      Counted r (tr ++ [.op t id c o x]) m' (Function.update R t (some ⟨id, c, l'⟩)) := by
    refine hc.same (claims_snoc_none hpush) (claims_snoc_none hpop) hs (marksAt_same hs ?_ ?_ ?_)
      fun b hb => ?_
    · rw [hin, ← hf]
      rfl
    · rw [hin, ← hd]
      rfl
    · rw [hin, ← hcl]
      rfl
    · obtain rfl := Option.some.inj hb
      exact hl'
  cases hm with
  | loadHead _ =>
    obtain ⟨rfl, rfl⟩ := Prod.mk.inj he
    refine same rfl rfl rfl rfl rfl rfl ⟨tr, [], rfl, hw.head, ?_⟩
    rw [popClaims, claims_snoc_none rfl]
    exact hroom
  | @loadTail args h d =>
    obtain ⟨rfl, rfl⟩ := Prod.mk.inj he
    obtain ⟨tr₁, tr₂, htr, hx, hle'⟩ := hknow
    exact same rfl rfl rfl rfl rfl rfl ⟨tr₁, tr₂ ++ [.op t id c .loadTail m.tail],
      (popClaims tr).length, by rw [htr, List.append_assoc]; rfl, hx, hw.tail,
      length_claims_le _, hle'⟩
  | @claimHead args h d hfull =>
    obtain ⟨hh, rfl⟩ := exec_casHead he
    have hlt := room_of_claim hb hw hc hknow hh hfull
    have hpos : ahead (popClaims tr).length h = (pushClaims tr).length := by
      rw [← hh, hw.head]
      exact ahead_word hle (by omega)
    have hpush : pushClaims (tr ++ [.op t id c (.casHead h (h + 1)) true]) =
        pushClaims tr ++ [⟨t, id, c, h⟩] := claims_snoc_some rfl
    have hpop : popClaims (tr ++ [.op t id c (.casHead h (h + 1)) true]) = popClaims tr :=
      claims_snoc_none rfl
    refine ⟨hc.word, ?_, knowsAt_update hc hpop ?_⟩
    · rw [hpush, hpop, List.length_append, List.length_singleton,
        marksAt_claim (hin _) (hin _) hpos rfl]
      exact hc.inv.claim (hin _) hlt
    · show (pushClaims (tr ++ [_]))[ahead (popClaims (tr ++ [_])).length h]? = _
      rw [hpush, hpop, hpos]
      exact List.getElem?_concat_length
  | missHead =>
    obtain rfl := exec_casHead_false he
    exact same rfl rfl rfl rfl rfl rfl trivial
  | @copyIn args h j b _ =>
    obtain ⟨-, rfl⟩ := Prod.mk.inj he
    have hknow' : KnowsAt r tr t id c (.filling args h (j + 1)) := hknow
    exact same rfl rfl rfl rfl rfl rfl (hknow'.snoc (claims_snoc_none rfl))
  | @publish args h =>
    obtain ⟨-, rfl⟩ := Prod.mk.inj he
    refine ⟨word_update hc.word (.inr rfl), ?_, knowsAt_update hc (claims_snoc_none rfl) trivial⟩
    rw [pushClaims, claims_snoc_none rfl, popClaims, claims_snoc_none rfl,
      marksAt_mark (hin _) (hin _)]
    exact hc.inv.mark (hin _)
  | @accept c' d st hst =>
    obtain ⟨rfl, rfl⟩ := Prod.mk.inj he
    have hd := hread rfl
    have hvalid : (marksAt (pushClaims tr).length (popClaims tr).length m R).valid
        ((popClaims tr).length % r.cap) = true := by
      rw [r.toNat_and_mask_ahead (popClaims tr).length, hd] at hst
      exact decide_eq_true (valid_of_not_empty (hc.word _ (r.index_lt _)) hst)
    refine ⟨hc.word, ?_, knowsAt_update hc (claims_snoc_none rfl) trivial⟩
    rw [pushClaims, claims_snoc_none rfl, popClaims, claims_snoc_none rfl,
      marksAt_accept (hin _) (hin _) hd]
    exact hc.inv.accept (by omega) hvalid
  | @clear c' d bs _ =>
    obtain ⟨-, rfl⟩ := Prod.mk.inj he
    refine ⟨word_update hc.word (.inl rfl), ?_,
      knowsAt_update hc (claims_snoc_none rfl) trivial⟩
    rw [pushClaims, claims_snoc_none rfl, popClaims, claims_snoc_none rfl, marksAt_clear (hin _)]
    exact hc.inv.clear (hin _) (inHand_of_pops hk ht hof.2 _)
  | @advance c' d bs =>
    obtain ⟨-, rfl⟩ := Prod.mk.inj he
    have hone := inHand_of_pops hk ht hof.2.1 (popClaims tr).length
    have hclear : inHand (popClaims tr).length Role.clearWord R t =
        some (popClaims tr).length := (hin _).trans (congrArg some (hread rfl))
    have hpush : pushClaims (tr ++ [.op t id c (.storeTail (d + 1)) ()]) = pushClaims tr :=
      claims_snoc_none rfl
    have hpop : popClaims (tr ++ [.op t id c (.storeTail (d + 1)) ()]) =
        popClaims tr ++ [⟨t, id, c, d + 1 - 1⟩] := claims_snoc_some rfl
    have hfill := (hc.inv.cleared t _ hclear).2.2.2
    refine ⟨hc.word, ?_, fun u a hu => ?_⟩
    · rw [hpush, hpop, List.length_append, List.length_singleton,
        marksAt_advance rfl (hin _) (hin _) hfill hone]
      exact hc.inv.advance hclear hone (hin _)
    · rcases update_some_iff.1 hu with ⟨-, ha⟩ | ⟨-, ha⟩
      · obtain rfl := Option.some.inj ha
        trivial
      · refine (hc.knows u a ha).advance hpush hpop fun w hw heq => hfill u ?_
        show inHand _ Role.writing R u = _
        rw [inHand, ha]
        simp [hw, heq]
  | _ =>
    obtain ⟨-, rfl⟩ := Prod.mk.inj he
    exact same rfl rfl rfl rfl rfl rfl trivial

omit [DecidableEq Tid] in
theorem hands_of_final {v : Ret} (h : (proto r).final l v) :
    l.writing = none ∧ l.drainWord = none ∧ l.clearWord = none := by
  cases l with
  | filling => exact h.elim
  | draining => exact h.elim
  | cleared => exact h.elim
  | _ => exact ⟨rfl, rfl, rfl⟩

/-- **The slots follow the discipline** along every timely run. -/
theorem counted_inductive (hf : Fresh r m₀) :
    InductiveUnder (proto r) (sys r Tid) m₀ (fun tr m R => Known tr R ∧ Words r tr m R)
      fun tr m R => Timely tr → Counted r tr m R := by
  refine InductiveUnder.guard (B := Timely) (fun _ _ h => h.of_append) ?_
  refine ⟨fun _ => ?_, fun _ hA hc ht _ _ => ?_,
    fun _ hA hc ht hm he hA' => counted_op hA'.1 hA.2.1 hA.2.2 hc ht hm he,
    fun _ hA hc ht hfin _ => ?_, fun _ _ he => he.elim⟩
  · have hcap := r.two_le_cap
    refine ⟨fun i hi => .inl (hf.slot i hi), Marks.inv_init (fun i hi => ?_) (by omega) rfl rfl
      (fun _ => rfl) (fun _ => rfl) fun _ => rfl, by simp⟩
    show decide (m₀.slot i = slotValid) = false
    rw [hf.slot i hi]
    rfl
  · refine hc.same claims_snoc_call claims_snoc_call rfl (marksAt_same rfl ?_ ?_ ?_)
      (by rintro _ ⟨⟩; trivial) <;> simp [inHand, ht, proto] <;> rfl
  · obtain ⟨hfill, hdrain, hclear⟩ := hands_of_final hfin
    refine hc.same claims_snoc_ret claims_snoc_ret rfl (marksAt_same rfl ?_ ?_ ?_)
      (by simp) <;> simp [inHand, ht, hfill, hdrain, hclear]

end Mpsc

end RingBuf
