import RingBuf.Conc.Trail
import RingBuf.Mpmc.Exclusion

/-!
# How an Mpmc call comes to its result

What a call of the Mpmc ring has done by the time it returns without having entered a callback
(`Outcome`): it has taken a position, or it has only loaded its counter and the slot word, and
perhaps failed to take the position. No slot word ever decreases (`Grown`), so what was stored
before bounds what the call has seen.
-/

namespace RingBuf

open Conc Word LawfulWord

namespace Mpmc

variable {Tid : Type} {r : Ring SizeT} {tr tr₁ tr₂ : List (Ev SizeT Tid r.objSize)} {t : Tid}
  {id : Nat} {c : Call r.objSize} {m m' : Mem SizeT Tid} {R : MRoles Tid SizeT r.objSize}
  {l l' : Role SizeT r.objSize}

/-! ## No slot word decreases -/

/-- Every number ever stored in a slot is a lower bound of what is there. -/
structure Grown (r : Ring SizeT) (tr : List (Ev SizeT Tid r.objSize)) (m : Mem SizeT Tid) :
    Prop where
  start : ∀ i < r.cap, i ≤ toNat (m.slot i)
  stored : ∀ t id c i v, .op t id c (.storeSlot i v) () ∈ tr → toNat v ≤ toNat (m.slot (toNat i))

theorem Grown.snoc {e : Ev SizeT Tid r.objSize} (hg : Grown r tr m)
    (he : ∀ t id c i v, e ≠ .op t id c (.storeSlot i v) ()) : Grown r (tr ++ [e]) m where
  start := hg.start
  stored t id c i v hmem := by
    rcases List.mem_append.1 hmem with h | h
    · exact hg.stored t id c i v h
    · exact absurd (List.mem_singleton.1 h).symm (he t id c i v)

variable [DecidableEq Tid]

theorem Grown.op {o : Op SizeT} {x : o.Res} (hb : NoOverflow r (tr ++ [.op t id c o x]))
    (hs : SlotInv r tr m R) (hg : Grown r tr m) (ht : R t = some ⟨id, c, l⟩)
    (hm : Trans r l o x l') (he : exec t o m = (x, m')) :
    Grown r (tr ++ [.op t id c o x]) m' where
  start i hi := (hg.start i hi).trans (slot_le_of_move hb hs ht hm he i)
  stored u j b i v hmem := by
    rcases List.mem_append.1 hmem with h | h
    · exact (hg.stored u j b i v h).trans (slot_le_of_move hb hs ht hm he _)
    · cases List.mem_singleton.1 h
      obtain ⟨-, rfl⟩ := Prod.mk.inj he
      show toNat v ≤ toNat (Function.update m.slot (toNat i) v (toNat i))
      rw [Function.update_self]

theorem grown_inductive {m₀ : Mem SizeT Tid} (hf : Fresh r m₀) :
    InductiveUnder (proto r) (sys r Tid) m₀ (fun tr m R => NoOverflow r tr → SlotInv r tr m R)
      fun tr m _ => NoOverflow r tr → Grown r tr m := by
  refine InductiveUnder.guard (B := NoOverflow r) (fun _ _ h => h.of_append) ?_
  refine ⟨fun hA => ⟨fun i hi => ?_, ?_⟩, fun _ _ hg _ _ _ => hg.snoc ?_, ?_,
    fun _ _ hg _ _ _ => hg.snoc ?_, fun _ _ he => he.elim⟩
  · have hcap := r.cap_le
    rw [hf.slot i hi]
    show i ≤ (BitVec.ofNat 64 i).toNat
    rw [BitVec.toNat_ofNat, Nat.mod_eq_of_lt (by omega)]
  · intro t id c i v h
    cases h
  · exact fun _ _ _ _ _ => nofun
  · intro n tr m R t id c l o x l' m' _ hA hg ht hm he hA'
    exact hg.op hA'.1 (hA.2 hA.1) ht hm he
  · exact fun _ _ _ _ _ => nofun

/-! ## What a call has done before it returns -/

/-- The operations that lead to a role. -/
def Role.Trail (r : Ring SizeT) : Role SizeT r.objSize → List ((o : Op SizeT) × o.Res) → Prop
  | .start _, ops => ops = []
  | .sawHead _ h, ops => ops = [⟨.loadHead, h⟩]
  | .sawPushSeq _ h seq, ops => ops = [⟨.loadHead, h⟩, ⟨.loadSlot (h &&& r.mask), seq⟩]
  | .sawTail _ d, ops => ops = [⟨.loadTail, d⟩]
  | .sawPopSeq _ d seq, ops => ops = [⟨.loadTail, d⟩, ⟨.loadSlot (d &&& r.mask), seq⟩]
  | .lost, ops =>
    (∃ h seq, ops = [⟨.loadHead, h⟩, ⟨.loadSlot (h &&& r.mask), seq⟩,
      ⟨.casHead h (h + 1), false⟩]) ∨
    ∃ d seq, ops = [⟨.loadTail, d⟩, ⟨.loadSlot (d &&& r.mask), seq⟩, ⟨.casTail d (d + 1), false⟩]
  | _, _ => True

omit [DecidableEq Tid] in
theorem Role.Trail.step {o : Op SizeT} {x : o.Res} {ops : List ((o : Op SizeT) × o.Res)}
    (hm : Trans r l o x l') (h : l.Trail r ops) : l'.Trail r (ops ++ [⟨o, x⟩]) := by
  cases hm with
  | loadHead _ =>
    obtain rfl : ops = [] := h
    rfl
  | pushSeq =>
    obtain rfl : ops = _ := h
    rfl
  | missHead =>
    obtain rfl : ops = _ := h
    exact .inl ⟨_, _, rfl⟩
  | loadTail _ _ =>
    obtain rfl : ops = [] := h
    rfl
  | popSeq =>
    obtain rfl : ops = _ := h
    rfl
  | missTail =>
    obtain rfl : ops = _ := h
    exact .inr ⟨_, _, rfl⟩
  | _ => trivial

/-- What is known of a state, with what the calls in progress have done. -/
structure Watched (r : Ring SizeT) (tr : List (Ev SizeT Tid r.objSize)) (m : Mem SizeT Tid)
    (R : MRoles Tid SizeT r.objSize) : Prop where
  known : Known tr R
  slots : SlotInv r tr m R
  grown : Grown r tr m
  trail : ∀ t a, R t = some a → ∃ ops, a.role.Trail r ops ∧ Doing tr t a.id a.call ops

variable {m₀ : Mem SizeT Tid} {tr₃ : List (Ev SizeT Tid r.objSize)}
  {cf : Config (Op SizeT) Op.Res Empty Tid (Call r.objSize) Ret (Mem SizeT Tid)} {x d seq : SizeT}

theorem trail_inductive' (r : Ring SizeT) (m₀ : Mem SizeT Tid) :
    Inductive (proto r) (sys r Tid) m₀ fun tr _ R =>
      ∀ t a, R t = some a → ∃ ops, a.role.Trail r ops ∧ Doing tr t a.id a.call ops :=
  trail_inductive (Role.Trail r) (fun _ => rfl) fun hm h => h.step hm

theorem watched_before_op {o : Op SizeT} {y : o.Res} (hf : Fresh r m₀)
    (h : Run (sys r Tid) (.start m₀) (tr₁ ++ .op t id c o y :: tr₂) cf)
    (hb : NoOverflow r (tr₁ ++ .op t id c o y :: tr₂)) :
    ∃ m m' R l l', Watched r tr₁ m R ∧ R t = some ⟨id, c, l⟩ ∧ Trans r l o y l' ∧
      exec t o m = (y, m') := by
  obtain ⟨n, m, m', R, l, l', -, ⟨⟨hk, htr⟩, hs, hg⟩, ht, hm, he⟩ := Inductive.before_op
    (follows r Tid) ((known_inductive.both (trail_inductive' r m₀)).both
      ((slotInv_inductive hf).and (grown_inductive hf))) h
  exact ⟨m, m', R, l, l', ⟨hk, hs hb.of_append, hg hb.of_append, htr⟩, ht, hm, he⟩

theorem watched_before_ret {v : Ret} (hf : Fresh r m₀)
    (h : Run (sys r Tid) (.start m₀) (tr₁ ++ .ret t id c v :: tr₂) cf)
    (hb : NoOverflow r (tr₁ ++ .ret t id c v :: tr₂)) :
    ∃ m R l, Watched r tr₁ m R ∧ R t = some ⟨id, c, l⟩ ∧ (proto r).final l v := by
  obtain ⟨n, m, R, l, -, ⟨⟨hk, htr⟩, hs, hg⟩, ht, hfin⟩ := Inductive.before_ret
    (follows r Tid) ((known_inductive.both (trail_inductive' r m₀)).both
      ((slotInv_inductive hf).and (grown_inductive hf))) h
  exact ⟨m, R, l, ⟨hk, hs hb.of_append, hg hb.of_append, htr⟩, ht, hfin⟩

theorem Watched.head_lt (hw : Watched r tr₁ m R) (hlt : (pushClaims (tr₁ ++ tr₂)).length < 2 ^ 63) :
    toNat m.head < 2 ^ 63 := by
  rw [← hw.slots.head.length]
  exact Nat.lt_of_le_of_lt (length_claims_le tr₂) hlt

/-! ## Calls that change nothing -/

/-- The operations that change a counter, a slot word or the object area. -/
def changes : (o : Op SizeT) → o.Res → Bool
  | .storeHead _, _ | .storeTail _, _ | .storeSlot _ _, _ | .writeByte _ _, _ => true
  | .casHead _ _, claimed | .casTail _ _, claimed => claimed
  | _, _ => false

/-- The call has changed none of these. -/
def Untouched {n : Nat} (tr : List (Ev SizeT Tid n)) (t : Tid) (id : Nat) : Prop :=
  ∀ c o x, .op t id c o x ∈ tr → changes o x = false

/-- The call has not entered a callback. -/
def Uncalled {n : Nat} (tr : List (Ev SizeT Tid n)) (t : Tid) (id : Nat) : Prop :=
  ∀ c p, .op t id c (.callback p) () ∉ tr

/-! ## Callbacks -/

/-- The operations that take a position from `tail_`. -/
def takesTail (o : Op SizeT) (x : o.Res) : Bool := (takeTail o x).isSome

/-- The operations that enter a callback. -/
def entersCb : (o : Op SizeT) → o.Res → Bool
  | .callback _, _ => true
  | _, _ => false

/-- A pop with a callback that takes a position enters the callback. -/
theorem escort_follows (r : Ring SizeT) (Tid : Type) [DecidableEq Tid] :
    (escort (Op SizeT) Op.Res Empty (Call r.objSize) Ret takesTail entersCb
      fun c => ∃ cb, c = .popWCb cb).Follows (sys r Tid) where
  body
    | .push args => escort_wp_of_not fun l' _ hl hK => by
      obtain ⟨cb, hcb⟩ := hK
      cases hl.symm.trans hcb
    | .pop size => escort_wp_of_not fun l' _ hl hK => by
      obtain ⟨cb, hcb⟩ := hK
      cases hl.symm.trans hcb
    | .popWCb cb => by
      refine Proto.wp_bind ?_
      simp only [popWCbMpmcRingBuf, Prog.op_bind, Prog.ret_bind]
      refine fun d => ⟨_, rfl, fun seq => ⟨_, rfl, ?_⟩⟩
      beta_reduce
      split
      · intro _ h
        cases h
      · split
        · intro _ h
          cases h
        · intro claimed
          cases claimed with
          | false =>
            refine ⟨_, rfl, fun _ h => ?_⟩
            cases h
          | true =>
            refine ⟨_, rfl, fun _ => ⟨_, rfl, ?_⟩⟩
            exact escort_wp_of_second (fun _ _ hcb _ _ => hcb) rfl
  code l := l.elim

/-- A pop with a callback that has taken a position has entered the callback. -/
theorem called_of_popped {cb : Callback r.objSize} {v : Ret}
    (h : Run (sys r Tid) (.start m₀) (tr₁ ++ .ret t id (.popWCb cb) v :: tr₂) cf)
    (hk : ⟨t, id, .popWCb cb, d⟩ ∈ popClaims tr₁) : ¬ Uncalled tr₁ t id := by
  intro hun
  obtain ⟨o, x, hmem, ho⟩ := exists_op_of_mem_claims hk
  have hp : takesTail o x = true := by rw [takesTail, ho]; rfl
  obtain ⟨o', x', hmem', hq⟩ := escorted (escort_follows r Tid) h ⟨cb, rfl⟩ hmem hp
  cases o' with
  | callback p => exact hun _ p hmem'
  | _ => cases hq

/-! ## How a call comes to its code -/

/-- What a call that has entered no callback has done when it returns `rc`. -/
inductive Outcome (r : Ring SizeT) (tr : List (Ev SizeT Tid r.objSize)) (t : Tid) (id : Nat)
    (c : Call r.objSize) (rc : Int) : Prop
  | taken (h : 0 ≤ rc)
  | tooLarge (hrc : rc = ringbufPushSizeTooLarge ∨ rc = ringbufPopSizeTooLarge)
      (h : Doing tr t id c [])
  | pushSeq {args : List Byte} {x seq : SizeT} (hc : c = .push args)
      (hrc : dif seq x > 0 ∧ rc = ringbufContention ∨ dif seq x < 0 ∧ rc = ringbufFull)
      (h : Doing tr t id c [⟨.loadHead, x⟩, ⟨.loadSlot (x &&& r.mask), seq⟩])
  | pushMiss {args : List Byte} {x seq : SizeT} (hc : c = .push args)
      (hrc : rc = ringbufContention)
      (h : Doing tr t id c [⟨.loadHead, x⟩, ⟨.loadSlot (x &&& r.mask), seq⟩,
        ⟨.casHead x (x + 1), false⟩])
  | popSeq {d seq : SizeT} (hc : ∀ args, c ≠ .push args)
      (hrc : dif seq (d + 1) > 0 ∧ rc = ringbufContention ∨
        dif seq (d + 1) < 0 ∧ rc = ringbufEmpty)
      (h : Doing tr t id c [⟨.loadTail, d⟩, ⟨.loadSlot (d &&& r.mask), seq⟩])
  | popMiss {d seq : SizeT} (hc : ∀ args, c ≠ .push args) (hrc : rc = ringbufContention)
      (h : Doing tr t id c [⟨.loadTail, d⟩, ⟨.loadSlot (d &&& r.mask), seq⟩,
        ⟨.casTail d (d + 1), false⟩])

/-- Only a push loads the head. -/
theorem push_of_loadHead (hf : Fresh r m₀)
    (h : Run (sys r Tid) (.start m₀) (tr₁ ++ .op t id c .loadHead x :: tr₂) cf)
    (hb : NoOverflow r (tr₁ ++ .op t id c .loadHead x :: tr₂)) : ∃ args, c = .push args := by
  obtain ⟨m, m', R, l, l', hw, ht, hm, -⟩ := watched_before_op hf h hb
  have hof : l.Of c := hw.known.role t _ ht
  cases hm with
  | loadHead _ => exact ⟨_, hof.symm⟩

/-- Only a pop loads the tail. -/
theorem pop_of_loadTail (hf : Fresh r m₀)
    (h : Run (sys r Tid) (.start m₀) (tr₁ ++ .op t id c .loadTail d :: tr₂) cf)
    (hb : NoOverflow r (tr₁ ++ .op t id c .loadTail d :: tr₂)) : ∀ args, c ≠ .push args := by
  obtain ⟨m, m', R, l, l', hw, ht, hm, -⟩ := watched_before_op hf h hb
  have hof : l.Of c := hw.known.role t _ ht
  cases hm with
  | loadTail hc _ =>
    obtain rfl := hof
    exact hc

theorem outcome_of_ret {v : Ret} (hf : Fresh r m₀)
    (h : Run (sys r Tid) (.start m₀) (tr₁ ++ .ret t id c v :: tr₂) cf)
    (hlt : (pushClaims (tr₁ ++ .ret t id c v :: tr₂)).length < 2 ^ 63)
    (hun : ∀ cb, c = .popWCb cb → Uncalled tr₁ t id) : Outcome r tr₁ t id c v.rc := by
  have hb := noOverflow_of_lt hlt
  obtain ⟨m, R, l, hw, ht, hfin⟩ := watched_before_ret hf h hb
  have hof : l.Of c := hw.known.role t _ ht
  have hsmall := hw.head_lt hlt
  have hle : toNat m.tail ≤ toNat m.head := hw.slots.inv.tail_le
  obtain ⟨ops, hops, hdoing⟩ := hw.trail t _ ht
  cases l with
  | start c' =>
    obtain rfl : c' = c := hof
    obtain rfl : ops = [] := hops
    cases c' with
    | push args =>
      obtain ⟨-, rfl⟩ := hfin
      exact .tooLarge (.inl rfl) hdoing
    | pop size =>
      obtain ⟨-, rfl⟩ := hfin
      exact .tooLarge (.inr rfl) hdoing
    | popWCb cb => exact hfin.elim
  | sawPushSeq args x seq =>
    obtain rfl : ops = _ := hops
    refine .pushSeq hof.1 ?_ hdoing
    exact hfin.imp (fun h => ⟨h.1, congrArg Ret.rc h.2⟩) fun h => ⟨h.1, congrArg Ret.rc h.2⟩
  | pushed x =>
    obtain rfl : v = ⟨toSsize x, []⟩ := hfin
    have hpos : toNat x < toNat m.head := hw.slots.head.lt (hw.known.push.own t _ x ht rfl)
    refine .taken ?_
    rw [toSsize_of_lt (hpos.trans hsmall)]
    exact Int.natCast_nonneg _
  | sawPopSeq c' d seq =>
    obtain rfl : ops = _ := hops
    refine .popSeq hof.2 ?_ hdoing
    exact hfin.imp (fun h => ⟨h.1, congrArg Ret.rc h.2⟩) fun h => ⟨h.1, congrArg Ret.rc h.2⟩
  | popped c' d bs =>
    obtain ⟨rfl, hpop, -⟩ := hof
    have hmem := hw.known.pop.own t _ d ht rfl
    cases c' with
    | push args => exact absurd rfl (hpop args)
    | pop size =>
      obtain rfl : v = ⟨toSsize d, bs⟩ := hfin
      have hpos : toNat d < toNat m.tail := hw.slots.tail.lt hmem
      refine .taken ?_
      rw [toSsize_of_lt (by omega)]
      exact Int.natCast_nonneg _
    | popWCb cb => exact absurd (hun cb rfl) (called_of_popped h hmem)
  | lost =>
    obtain rfl : v = ⟨ringbufContention, []⟩ := hfin
    rcases hops with ⟨x, seq, rfl⟩ | ⟨d, seq, rfl⟩
    · obtain ⟨tr₁, tr', tr₃, rfl, -⟩ := hdoing.triple
      rw [List.append_assoc, List.append_assoc] at h hb
      obtain ⟨args, hc⟩ := push_of_loadHead hf h hb
      exact .pushMiss hc rfl hdoing
    · obtain ⟨tr₁, tr', tr₃, rfl, -⟩ := hdoing.triple
      rw [List.append_assoc, List.append_assoc] at h hb
      exact .popMiss (pop_of_loadTail hf h hb) rfl hdoing
  | _ => exact hfin.elim

namespace Outcome

theorem of_full (h : Outcome r tr t id c ringbufFull) : ∃ x seq, dif seq x < 0 ∧
    Doing tr t id c [⟨.loadHead, x⟩, ⟨.loadSlot (x &&& r.mask), seq⟩] := by
  cases h with
  | taken h => exact absurd h (by decide)
  | tooLarge hrc _ => exact absurd hrc (by decide)
  | pushSeq _ hrc h => exact ⟨_, _, (hrc.resolve_left fun h => absurd h.2 (by decide)).1, h⟩
  | popSeq _ hrc _ => exact absurd hrc (by rintro (⟨-, h⟩ | ⟨-, h⟩) <;> exact absurd h (by decide))
  | pushMiss _ hrc _ => exact absurd hrc (by decide)
  | popMiss _ hrc _ => exact absurd hrc (by decide)

theorem of_empty (h : Outcome r tr t id c ringbufEmpty) : ∃ d seq, dif seq (d + 1) < 0 ∧
    Doing tr t id c [⟨.loadTail, d⟩, ⟨.loadSlot (d &&& r.mask), seq⟩] := by
  cases h with
  | taken h => exact absurd h (by decide)
  | tooLarge hrc _ => exact absurd hrc (by decide)
  | pushSeq _ hrc _ => exact absurd hrc (by rintro (⟨-, h⟩ | ⟨-, h⟩) <;> exact absurd h (by decide))
  | popSeq _ hrc h => exact ⟨_, _, (hrc.resolve_left fun h => absurd h.2 (by decide)).1, h⟩
  | pushMiss _ hrc _ => exact absurd hrc (by decide)
  | popMiss _ hrc _ => exact absurd hrc (by decide)

theorem of_contention_push {args : List Byte}
    (h : Outcome r tr t id (.push args) ringbufContention) :
    (∃ x seq, dif seq x > 0 ∧
      Doing tr t id (.push args) [⟨.loadHead, x⟩, ⟨.loadSlot (x &&& r.mask), seq⟩]) ∨
    ∃ x seq, Doing tr t id (.push args) [⟨.loadHead, x⟩, ⟨.loadSlot (x &&& r.mask), seq⟩,
      ⟨.casHead x (x + 1), false⟩] := by
  cases h with
  | taken h => exact absurd h (by decide)
  | tooLarge hrc _ => exact absurd hrc (by decide)
  | pushSeq _ hrc h =>
    exact .inl ⟨_, _, (hrc.resolve_right fun h => absurd h.2 (by decide)).1, h⟩
  | pushMiss _ _ h => exact .inr ⟨_, _, h⟩
  | popSeq hc _ _ => exact absurd rfl (hc args)
  | popMiss hc _ _ => exact absurd rfl (hc args)

theorem of_contention_pop (hpop : ∀ args, c ≠ .push args)
    (h : Outcome r tr t id c ringbufContention) :
    (∃ d seq, dif seq (d + 1) > 0 ∧
      Doing tr t id c [⟨.loadTail, d⟩, ⟨.loadSlot (d &&& r.mask), seq⟩]) ∨
    ∃ d seq, Doing tr t id c [⟨.loadTail, d⟩, ⟨.loadSlot (d &&& r.mask), seq⟩,
      ⟨.casTail d (d + 1), false⟩] := by
  cases h with
  | taken h => exact absurd h (by decide)
  | tooLarge hrc _ => exact absurd hrc (by decide)
  | pushSeq hc _ _ => exact absurd hc (hpop _)
  | pushMiss hc _ _ => exact absurd hc (hpop _)
  | popSeq _ hrc h =>
    exact .inl ⟨_, _, (hrc.resolve_right fun h => absurd h.2 (by decide)).1, h⟩
  | popMiss _ _ h => exact .inr ⟨_, _, h⟩

/-- A call that took nothing has changed nothing. -/
theorem untouched {rc : Int} (h : Outcome r tr t id c rc) (hneg : rc < 0) : Untouched tr t id := by
  have quiet {ops : List ((o : Op SizeT) × o.Res)} (hd : Doing tr t id c ops)
      (hops : ∀ x ∈ ops, changes x.1 x.2 = false) : Untouched tr t id :=
    fun _ o x hmem => hops ⟨o, x⟩ (hd.mem hmem)
  cases h with
  | taken h => exact absurd hneg (Int.not_lt.2 h)
  | tooLarge _ h => exact quiet h (by simp)
  | pushSeq _ _ h => exact quiet h (by simp [changes])
  | pushMiss _ _ h => exact quiet h (by simp [changes])
  | popSeq _ _ h => exact quiet h (by simp [changes])
  | popMiss _ _ h => exact quiet h (by simp [changes])

end Outcome

end Mpmc

end RingBuf
