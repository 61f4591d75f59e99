import RingBuf.Conc.Trail
import RingBuf.Mpsc.Alone
import RingBuf.Mpsc.Counts
import RingBuf.Mpsc.Linear

/-!
# What the Mpsc error codes mean

A push of the Mpsc ring compares a head and a tail that it has read one after the other, a pop
decides from a head that its thread has kept from an earlier time, or from another ring. Each
code is traced back to what was true when the call performed its loads (`Tells`).

* `mpsc_codes`: what each code says about the history, for calls that took no position; in an
  undisturbed run the codes mean what their names say (`Meant`).
* `mpsc_codes_not`: a callback may return any code, a push may be told full by a tail that has
  passed the head it had loaded, and a pop may take an empty ring for one that is being written.
-/

namespace RingBuf

open Conc Word LawfulWord

namespace Mpsc

variable {Tid : Type} {r : Ring SizeT} {tr : List (Ev Tid r.objSize)} {t u : Tid} {id : Nat}
  {c : Call r.objSize} {l l' : Role r.objSize} {m m' : Mem SizeT Tid} {R : MRoles Tid r.objSize}
  {o : Op SizeT} {x : o.Res} {e : Ev Tid r.objSize}

/-! ## The meaning of the codes -/

/-- The call has taken a position, or given one back. -/
def Took {n : Nat} (tr : List (Ev Tid n)) (t : Tid) (id : Nat) : Prop :=
  ∃ k, (k ∈ pushClaims tr ∨ k ∈ popClaims tr) ∧ k.thread = t ∧ k.id = id

/-- At some moment of the call, `head_ - tail_` was `n`. -/
def Held {n : Nat} (d : SizeT) (tr : List (Ev Tid n)) (t : Tid) (id : Nat) : Prop :=
  Moment (fun tr => word (pushClaims tr).length - word (popClaims tr).length = d) tr t id

/-- When the call loaded the tail, more positions had been given back than were taken when it
loaded the head. -/
def Passed {n : Nat} (tr : List (Ev Tid n)) (t : Tid) (id : Nat) : Prop :=
  ∃ tr₁ tr₂ tr₃ c h d, tr = tr₁ ++ .op t id c .loadHead h :: tr₂ ++ .op t id c .loadTail d :: tr₃ ∧
    (pushClaims tr₁).length < (popClaims (tr₁ ++ .op t id c .loadHead h :: tr₂)).length

/-- Since the call has loaded the head, another thread has taken a position. -/
def Overtaken {n : Nat} (tr : List (Ev Tid n)) (t : Tid) (id : Nat) : Prop :=
  ∃ tr₁ tr₂ c h, tr = tr₁ ++ .op t id c .loadHead h :: tr₂ ∧ ∃ k ∈ pushClaims tr₂, k.thread ≠ t

/-- When the call loaded the slot of the tail, a push had taken its position and had not yet stored
`SLOT_VALID`. -/
def Unwritten (r : Ring SizeT) (tr : List (Ev Tid r.objSize)) (t : Tid) (id : Nat) : Prop :=
  ∃ tr₁ tr₂ c st k, tr = tr₁ ++
      .op t id c (.loadSlot (word (popClaims tr₁).length &&& r.mask)) st :: tr₂ ∧
    (pushClaims tr₁)[(popClaims tr₁).length]? = some k ∧ Writes tr₁ k.thread k.id k.pos

/-- When the call loaded the slot of the tail the ring was empty, but `local_head` was not the
tail. -/
def Fooled (r : Ring SizeT) (tr : List (Ev Tid r.objSize)) (t : Tid) (id : Nat) : Prop :=
  ∃ tr₁ tr₂ tr₃ c v st, tr = tr₁ ++ .op t id c .getLocalHead v :: tr₂ ++
      .op t id c (.loadSlot (word (popClaims tr₁).length &&& r.mask)) st :: tr₃ ∧
    v ≠ word (popClaims tr₁).length ∧
    (pushClaims (tr₁ ++ .op t id c .getLocalHead v :: tr₂)).length = (popClaims tr₁).length

/-- What the error codes of the history `tr` mean, and what its counts are. -/
structure Codes (r : Ring SizeT) (tr : List (Ev Tid r.objSize)) (m : Mem SizeT Tid) : Prop where
  head : m.head = word (pushClaims tr).length
  tail : m.tail = word (popClaims tr).length
  full : ∀ {tr₁ tr₂ t id args v}, tr = tr₁ ++ .ret t id (.push args) v :: tr₂ →
    v.rc = ringbufFull → ¬ Took tr₁ t id → Timely tr₁ →
    Held r.objNum tr₁ t id ∨ Passed tr₁ t id
  contention : ∀ {tr₁ tr₂ t id args v}, tr = tr₁ ++ .ret t id (.push args) v :: tr₂ →
    v.rc = ringbufContention → ¬ Took tr₁ t id → Overtaken tr₁ t id
  empty : ∀ {tr₁ tr₂ t id c v}, tr = tr₁ ++ .ret t id c v :: tr₂ → c.pops = true →
    v.rc = ringbufEmpty → ¬ Took tr₁ t id → Held 0 tr₁ t id
  writing : ∀ {tr₁ tr₂ t id c v}, tr = tr₁ ++ .ret t id c v :: tr₂ → c.pops = true →
    v.rc = ringbufSlotWritingData → ¬ Took tr₁ t id → Timely tr₁ →
    Unwritten r tr₁ t id ∨ Fooled r tr₁ t id

/-- The codes of the history `tr` mean what their names say. -/
structure Meant (r : Ring SizeT) (tr : List (Ev Tid r.objSize)) : Prop where
  full : ∀ {tr₁ tr₂ t id args v}, tr = tr₁ ++ .ret t id (.push args) v :: tr₂ →
    v.rc = ringbufFull → Held r.objNum tr₁ t id
  contention : ∀ {tr₁ tr₂ t id args v}, tr = tr₁ ++ .ret t id (.push args) v :: tr₂ →
    v.rc = ringbufContention → Overtaken tr₁ t id
  empty : ∀ {tr₁ tr₂ t id c v}, tr = tr₁ ++ .ret t id c v :: tr₂ → c.pops = true →
    v.rc = ringbufEmpty → Held 0 tr₁ t id
  writing : ∀ {tr₁ tr₂ t id c v}, tr = tr₁ ++ .ret t id c v :: tr₂ → c.pops = true →
    v.rc = ringbufSlotWritingData → Unwritten r tr₁ t id

/-- The codes of a push, and those of a pop. -/
def pushCodes : List Int := [ringbufFull, ringbufContention]
def popCodes : List Int := [ringbufEmpty, ringbufSlotWritingData]

/-- Nothing in the history `tr` makes a code misleading. -/
structure Undisturbed (r : Ring SizeT) (tr : List (Ev Tid r.objSize)) : Prop where
  timely : Timely tr
  passed : ∀ t id, ¬ Passed tr t id
  fooled : ∀ t id, ¬ Fooled r tr t id
  /-- No position that a push takes, or a pop gives back, reads as a code. -/
  pushPos : ∀ k ∈ pushClaims tr, toSsize k.pos ∉ pushCodes
  popPos : ∀ k ∈ popClaims tr, ∀ others size, k.call = .pop others size →
    toSsize k.pos ∉ popCodes
  /-- No callback answers with a code. -/
  callback : ∀ {t id others cb ops v}, .call t id (.popWCb others cb) ∈ tr →
    cb.onObj.Takes ops v → v ∉ popCodes

/-! ## What a call knows of its moments -/

/-- The call has loaded the head, and since then only others have taken positions. -/
def Since (r : Ring SizeT) (tr : List (Ev Tid r.objSize)) (t : Tid) (id : Nat)
    (c : Call r.objSize) (h : SizeT) : Prop :=
  ∃ tr₁ tr₂, tr = tr₁ ++ .op t id c .loadHead h :: tr₂ ∧ .call t id c ∈ tr₁ ∧
    h = word (pushClaims tr₁).length ∧
    (Timely tr₁ → (pushClaims tr₁).length ≤ (popClaims tr₁).length + r.cap) ∧
    ∀ k ∈ pushClaims tr₂, k.thread ≠ t

/-- The call has found a head in `local_head` that is not the tail `d`, and no position has been
given back since. -/
def Strayed {n : Nat} (tr : List (Ev Tid n)) (t : Tid) (id : Nat) (c : Call n) (d : SizeT) : Prop :=
  ∃ tr₁ tr₂ v, tr = tr₁ ++ .op t id c .getLocalHead v :: tr₂ ∧ v ≠ d ∧
    popClaims tr = popClaims tr₁

/-- What was true at the loads that have led to a role. -/
def Tells (r : Ring SizeT) (tr : List (Ev Tid r.objSize)) (t : Tid) (id : Nat)
    (c : Call r.objSize) : Role r.objSize → Prop
  | .sawHead _ h => Since r tr t id c h
  | .sawTail _ h d => Since r tr t id c h ∧
    (Timely tr → h - d ≥ r.objNum → Held r.objNum tr t id ∨ Passed tr t id)
  | .lost => Overtaken tr t id
  | .popHead _ d h => (h = d → Held 0 tr t id) ∧
    (h ≠ d → Timely tr → (popClaims tr).length < (pushClaims tr).length)
  | .popSlot _ d => Strayed tr t id c d ∨
    (Timely tr → (popClaims tr).length < (pushClaims tr).length)
  | .empty => Held 0 tr t id
  | .refused => Timely tr → Unwritten r tr t id ∨ Fooled r tr t id
  | _ => True

theorem Since.snoc {h : SizeT} (hs : Since r tr t id c h)
    (he : ∀ k ∈ pushClaims [e], k.thread ≠ t) : Since r (tr ++ [e]) t id c h := by
  obtain ⟨tr₁, tr₂, htr, hc, hh, hle, hone⟩ := hs
  refine ⟨tr₁, tr₂ ++ [e], by rw [htr, List.append_assoc]; rfl, hc, hh, hle, fun k hk => ?_⟩
  rw [pushClaims, claims_append] at hk
  exact (List.mem_append.1 hk).elim (hone k) (he k)

theorem Strayed.snoc {d : SizeT} (h : Strayed tr t id c d)
    (he : popClaims (tr ++ [e]) = popClaims tr) : Strayed (tr ++ [e]) t id c d := by
  obtain ⟨tr₁, tr₂, v, htr, hv, hpop⟩ := h
  exact ⟨tr₁, tr₂ ++ [e], v, by rw [htr, List.append_assoc]; rfl, hv, he.trans hpop⟩

theorem Passed.append {n : Nat} {tr : List (Ev Tid n)} (h : Passed tr t id)
    (tr' : List (Ev Tid n)) : Passed (tr ++ tr') t id := by
  obtain ⟨tr₁, tr₂, tr₃, c, h, d, htr, hlt⟩ := h
  exact ⟨tr₁, tr₂, tr₃ ++ tr', c, h, d, by rw [htr]; simp, hlt⟩

theorem Overtaken.snoc {n : Nat} {tr : List (Ev Tid n)} (h : Overtaken tr t id) (e : Ev Tid n) :
    Overtaken (tr ++ [e]) t id := by
  obtain ⟨tr₁, tr₂, c, h, htr, k, hk, hne⟩ := h
  exact ⟨tr₁, tr₂ ++ [e], c, h, by rw [htr]; simp, k, mem_claims_append hk _, hne⟩

theorem Unwritten.snoc (h : Unwritten r tr t id) (e : Ev Tid r.objSize) :
    Unwritten r (tr ++ [e]) t id := by
  obtain ⟨tr₁, tr₂, c, st, k, htr, hk, hw⟩ := h
  exact ⟨tr₁, tr₂ ++ [e], c, st, k, by rw [htr]; simp, hk, hw⟩

theorem Fooled.append (h : Fooled r tr t id) (tr' : List (Ev Tid r.objSize)) :
    Fooled r (tr ++ tr') t id := by
  obtain ⟨tr₁, tr₂, tr₃, c, v, st, htr, hv, hlen⟩ := h
  exact ⟨tr₁, tr₂, tr₃ ++ tr', c, v, st, by rw [htr]; simp, hv, hlen⟩

/-- What a call knows stays true while other threads move, unless they pop during its pop. -/
theorem Tells.other (h : Tells r tr t id c l) (he : e.thread ≠ t)
    (hpop : ∀ d, l.tailRead = some d → popClaims (tr ++ [e]) = popClaims tr) :
    Tells r (tr ++ [e]) t id c l := by
  have others : ∀ k ∈ pushClaims [e], k.thread ≠ t := fun k hk => by
    rw [thread_of_claim hk]
    exact he
  have more {d : SizeT} (hd : l.tailRead = some d)
      (h : Timely tr → (popClaims tr).length < (pushClaims tr).length)
      (hb : Timely (tr ++ [e])) :
      (popClaims (tr ++ [e])).length < (pushClaims (tr ++ [e])).length := by
    rw [hpop d hd]
    exact Nat.lt_of_lt_of_le (h hb.of_append) (length_claims_le _)
  cases l with
  | sawHead args x => exact Since.snoc h others
  | sawTail args x d =>
    refine ⟨h.1.snoc others, fun hb hfull => ?_⟩
    exact (h.2 hb.of_append hfull).imp (·.append _) (·.append _)
  | lost => exact Overtaken.snoc h e
  | popHead c' d x => exact ⟨fun hx => (h.1 hx).append _, fun hx => more rfl (h.2 hx)⟩
  | popSlot c' d => exact h.imp (·.snoc (hpop d rfl)) (more rfl)
  | empty => exact Moment.append h _
  | refused => exact fun hb => (h hb.of_append).imp (·.snoc e) (·.append _)
  | _ => trivial

/-- What is known of a state. -/
structure Watched (r : Ring SizeT) (tr : List (Ev Tid r.objSize)) (m : Mem SizeT Tid)
    (R : MRoles Tid r.objSize) : Prop where
  known : Known tr R
  words : Words r tr m R
  counted : Timely tr → Counted r tr m R
  called : ∀ t a, R t = some a → .call t a.id a.call ∈ tr
  writes : ∀ t id p, Writes tr t id p ↔ ∃ a, R t = some a ∧ a.id = id ∧ a.role.writing = some p

/-! ## The loads -/

theorem Watched.tail {h : SizeT} (hw : Watched r tr m R) (hs : Since r tr t id c h)
    (hb : Timely tr) (hfull : h - m.tail ≥ r.objNum) :
    Held r.objNum (tr ++ [.op t id c .loadTail m.tail]) t id ∨
      Passed (tr ++ [.op t id c .loadTail m.tail]) t id := by
  obtain ⟨tr₁, tr₂, htr, hcall, hh, hroom, -⟩ := hs
  by_cases hpass : (pushClaims tr₁).length < (popClaims tr).length
  · refine .inr ⟨tr₁, tr₂, [], c, h, m.tail, by rw [htr], ?_⟩
    rw [← htr]
    exact hpass
  · -- The tail has not moved since the head was loaded, and the ring was full then.
    have hle : (popClaims tr₁).length ≤ (popClaims tr).length := by
      rw [htr]
      exact length_claims_le _
    have hroom' := hroom (htr ▸ hb).of_append
    rw [hh, hw.words.tail] at hfull
    have heq := (r.full_iff (Nat.not_lt.1 hpass) (by omega)).1 hfull
    refine .inl ⟨tr₁, .op t id c .loadHead h :: tr₂ ++ [.op t id c .loadTail m.tail], c,
      by rw [htr, List.append_assoc], hcall, ?_⟩
    have hcap := r.cap_le
    apply toNat_inj
    rw [toNat_word_sub (by omega) (by omega)]
    show _ = r.cap
    omega

theorem Watched.refused {c' : Call r.objSize} {d st : SizeT} (hw : Watched r tr m R)
    (ht : R t = some ⟨id, c, .popSlot c' d⟩) (htell : Tells r tr t id c (.popSlot c' d))
    (hb : Timely tr) (hst : m.slot (toNat (d &&& r.mask)) &&& slotEmpty ≠ 0) :
    Unwritten r (tr ++ [.op t id c (.loadSlot (d &&& r.mask)) st]) t id ∨
      Fooled r (tr ++ [.op t id c (.loadSlot (d &&& r.mask)) st]) t id := by
  have hc := hw.counted hb
  have hof := hw.known.role t _ ht
  have hd : d = word (popClaims tr).length := (hw.words.read t _ d ht rfl).trans hw.words.tail
  have hle := hc.le
  have hcap := r.cap_le
  have hahead : ahead (popClaims tr).length d = (popClaims tr).length := by
    rw [hd]
    exact ahead_word le_rfl (by omega)
  by_cases hlt : (popClaims tr).length < (pushClaims tr).length
  · -- The position is claimed. It is not marked, and the consumer has not cleared it.
    left
    rcases hc.inv.full _ le_rfl hlt with hv | ⟨u, hu⟩ | ⟨u, hu⟩
    · have hslot : m.slot (toNat (d &&& r.mask)) = slotValid := by
        rw [r.toNat_and_mask_ahead (popClaims tr).length, hahead]
        exact of_decide_eq_true hv
      rw [hslot] at hst
      exact absurd rfl hst
    · obtain ⟨a, ha, hfill⟩ := Option.bind_eq_some_iff.1 hu
      obtain ⟨w, hrole, hpos⟩ := Option.map_eq_some_iff.1 hfill
      have hclaim : (pushClaims tr)[(popClaims tr).length]? = some ⟨u, a.id, a.call, w⟩ := by
        have hknow := hc.knows u a ha
        obtain ⟨j, e, k⟩ := a
        cases k with
        | filling args h i =>
          obtain rfl := Option.some.inj hrole
          have hk : (pushClaims tr)[ahead (popClaims tr).length h]? = some ⟨u, j, e, h⟩ := hknow
          rwa [hpos] at hk
        | _ => cases hrole
      exact ⟨tr, [], c, st, _, by rw [← hd], hclaim, (hw.writes u a.id w).2 ⟨a, ha, rfl, hrole⟩⟩
    · by_cases hut : u = t
      · have hnone : inHand (popClaims tr).length Role.clearWord R t = none := by
          rw [inHand, ht]
          rfl
        cases (hut ▸ hu).symm.trans hnone
      · have hnone := (inHand_of_pops hw.known ht hof.2 (popClaims tr).length u hut).2
        cases hu.symm.trans hnone
  · right
    obtain ⟨tr₁, tr₂, v, htr, hv, hpop⟩ := htell.resolve_right fun h => hlt (h hb)
    rw [hpop] at hd hle hlt
    refine ⟨tr₁, tr₂, [], c, v, st, by rw [← htr, ← hd], hd ▸ hv, ?_⟩
    rw [← htr]
    omega

/-! ## Every run -/

theorem Watched.lt (hw : Watched r tr m R) (hb : Timely tr) (hne : m.head ≠ m.tail) :
    (popClaims tr).length < (pushClaims tr).length := by
  have hle := (hw.counted hb).le
  refine Nat.lt_of_le_of_ne hle fun heq => hne ?_
  rw [hw.words.head, hw.words.tail, heq]

/-- What the call of a move knows after it. -/
theorem Watched.tells [DecidableEq Tid] (hw : Watched r tr m R) (ht : R t = some ⟨id, c, l⟩)
    (htell : Tells r tr t id c l) (hm : Trans r l o x l') (he : exec t o m = (x, m')) :
    Tells r (tr ++ [.op t id c o x]) t id c l' := by
  have hcall := hw.called t _ ht
  have hof := hw.known.role t _ ht
  have more {tr' : List (Ev Tid r.objSize)} (hpop : popClaims tr' = popClaims tr)
      (hpush : pushClaims tr' = pushClaims tr) (htime : Timely tr' → Timely tr)
      (h : Timely tr → (popClaims tr).length < (pushClaims tr).length) (hb : Timely tr') :
      (popClaims tr').length < (pushClaims tr').length := by
    rw [hpop, hpush]
    exact h (htime hb)
  cases hm with
  | loadHead _ =>
    obtain ⟨rfl, rfl⟩ := Prod.mk.inj he
    exact ⟨tr, [], rfl, hcall, hw.words.head, fun hb => (hw.counted hb).room, nofun⟩
  | loadTail =>
    obtain ⟨rfl, rfl⟩ := Prod.mk.inj he
    exact ⟨Since.snoc htell nofun, fun hb hfull => hw.tail htell hb.of_append hfull⟩
  | missHead =>
    obtain ⟨tr₁, tr₂, htr, -, hh, -, hone⟩ := htell.1
    have hne : pushClaims tr₂ ≠ [] := by
      intro hnil
      have hlen : (pushClaims tr).length = (pushClaims tr₁).length + (pushClaims tr₂).length := by
        rw [htr]
        exact length_claims_insert rfl
      rw [hnil, List.length_nil, Nat.add_zero] at hlen
      apply exec_casHead_ne he
      rw [hw.words.head, hlen, hh]
    obtain ⟨k, hk⟩ := List.exists_mem_of_ne_nil _ hne
    exact ⟨tr₁, _, c, _, by rw [htr, List.append_assoc]; rfl, k, mem_claims_append hk _,
      hone k hk⟩
  | cacheSome hne =>
    obtain ⟨rfl, rfl⟩ := Prod.mk.inj he
    exact .inl ⟨tr, [], _, rfl, hne, claims_snoc_none rfl⟩
  | @popHead c' d h =>
    obtain ⟨rfl, rfl⟩ := Prod.mk.inj he
    have hd : d = m.tail := hw.words.read t _ d ht rfl
    refine ⟨fun heq => ?_, fun hne => more (claims_snoc_none rfl) (claims_snoc_none rfl)
      Timely.of_append fun hb => hw.lt hb (hd ▸ hne)⟩
    refine Moment.append (Moment.now hcall ?_) _
    rw [← hw.words.head, ← hw.words.tail, ← hd, heq, BitVec.sub_self]
    rfl
  | setEmpty => exact (htell.1 rfl).append _
  | setSome hne =>
    exact .inr (more (claims_snoc_none rfl) (claims_snoc_none rfl) Timely.of_append
      (htell.2 hne))
  | @refuse c' d st hst =>
    obtain ⟨rfl, rfl⟩ := Prod.mk.inj he
    exact fun hb => hw.refused ht htell hb.of_append hst
  | _ => trivial

variable [DecidableEq Tid] {m₀ : Mem SizeT Tid}
  {cf : Config (Op SizeT) Op.Res Empty Tid (Call r.objSize) Ret (Mem SizeT Tid)}

theorem watched_inductive (hf : Fresh r m₀) :
    Inductive (proto r) (sys r Tid) m₀ fun tr m R => Watched r tr m R := by
  refine ((((known_inductive.and (words_inductive hf)).and (counted_inductive hf)).both
    (called_inductive.both writes_inductive)).congr fun tr m R => ?_)
  exact ⟨fun h => ⟨h.1.1.1, h.1.1.2, h.1.2, h.2.1, h.2.2⟩,
    fun h => ⟨⟨⟨h.known, h.words⟩, h.counted⟩, h.called, h.writes⟩⟩

theorem pops_of_putTail {y : SizeT} (hof : l.Of c) (hm : Trans r l o x l')
    (ho : putTail o x = some y) : c.pops = true := by
  cases hm with
  | advance => exact hof.2.1
  | _ => cases ho

/-- **What the calls in progress know** of the moments they have seen. -/
theorem tells_inductive (hf : Fresh r m₀) :
    Inductive (proto r) (sys r Tid) m₀ fun tr m R => Watched r tr m R ∧
      ∀ t a, R t = some a → Tells r tr t a.id a.call a.role := by
  refine InductiveUnder.and (watched_inductive hf) ?_
  refine ⟨by simp, fun _ hw hI ht _ _ u b hb => ?_, fun _ hw hI ht hm he _ u b hb => ?_,
    fun _ hw hI ht _ _ u b hb => ?_, fun _ _ he => he.elim⟩
  · rcases update_some_iff.1 hb with ⟨-, hy⟩ | ⟨hu, hb⟩
    · obtain rfl := Option.some.inj hy
      trivial
    · exact (hI u b hb).other (Ne.symm hu) fun _ _ => claims_snoc_call
  · rcases update_some_iff.1 hb with ⟨rfl, hy⟩ | ⟨hu, hb⟩
    · obtain rfl := Option.some.inj hy
      exact hw.tells ht (hI _ _ ht) hm he
    · refine (hI u b hb).other (Ne.symm hu) fun d hd => ?_
      -- During the pop of `u`, no other thread moves the tail.
      apply claims_snoc_none
      rw [Option.eq_none_iff_forall_ne_some]
      intro y ho
      have hpops := pops_of_putTail (hw.known.role _ _ ht) hm ho
      have hpops' := pops_of_tailRead (hw.known.role u b hb) hd
      exact hu (hw.known.one u _ b _ hb ht hpops' hpops)
  · rcases update_some_iff.1 hb with ⟨-, hy⟩ | ⟨hu, hb⟩
    · cases hy
    · exact (hI u b hb).other (Ne.symm hu) fun _ _ => claims_snoc_ret

/-- How a call that took no position comes to its code. -/
inductive Refusal (r : Ring SizeT) (rc : Int) : Role r.objSize → Prop
  | tooLarge {l : Role r.objSize}
    (hrc : rc = ringbufPushSizeTooLarge ∨ rc = ringbufPopSizeTooLarge) : Refusal r rc l
  | full {args : List Byte} {h d : SizeT} (hrc : rc = ringbufFull) (hfull : h - d ≥ r.objNum) :
    Refusal r rc (.sawTail args h d)
  | contention (hrc : rc = ringbufContention) : Refusal r rc .lost
  | empty (hrc : rc = ringbufEmpty) : Refusal r rc .empty
  | writing (hrc : rc = ringbufSlotWritingData) : Refusal r rc .refused

omit [DecidableEq Tid] in
theorem refusal_of_final {v : Ret} (hk : Known tr R) (ht : R t = some ⟨id, c, l⟩)
    (hfin : (proto r).final l v) (hnot : ¬ Took tr t id) : Refusal r v.rc l := by
  cases l with
  | start c' =>
    cases c' with
    | push args => exact .tooLarge (.inl (congrArg Ret.rc hfin.2))
    | pop others size => exact .tooLarge (.inr (congrArg Ret.rc hfin.2))
    | popWCb others cb => exact hfin.elim
  | sawTail args h d => exact .full (congrArg Ret.rc hfin.2) hfin.1
  | pushed h => exact absurd ⟨_, .inl (hk.push.own _ _ h ht rfl), rfl, rfl⟩ hnot
  | lost => exact .contention (congrArg Ret.rc hfin)
  | empty => exact .empty (congrArg Ret.rc hfin)
  | refused => exact .writing (congrArg Ret.rc hfin)
  | popped c' d bs => exact absurd ⟨_, .inr (hk.pop.own _ _ d ht rfl), rfl, rfl⟩ hnot
  | _ => exact hfin.elim

theorem tells_before_ret {tr₁ tr₂ : List (Ev Tid r.objSize)} {v : Ret} (hf : Fresh r m₀)
    (h : Run (sys r Tid) (.start m₀) (tr₁ ++ .ret t id c v :: tr₂) cf) (hnot : ¬ Took tr₁ t id) :
    ∃ l, Tells r tr₁ t id c l ∧ Refusal r v.rc l := by
  obtain ⟨n, m, R, l, -, ⟨hw, htell⟩, ht, hfin⟩ :=
    Inductive.before_ret (follows r Tid) (tells_inductive hf) h
  exact ⟨l, htell t _ ht, refusal_of_final hw.known ht hfin hnot⟩

/-- What each code says, whatever the run. -/
theorem Fresh.codes (hf : Fresh r m₀) (h : Run (sys r Tid) (.start m₀) tr cf) :
    Codes r tr cf.shared := by
  obtain ⟨R, -, -, hw⟩ := (watched_inductive hf).run (follows r Tid) h
  refine ⟨hw.words.head, hw.words.tail, fun htr hrc hnot hb => ?_, fun htr hrc hnot => ?_,
    fun htr hc hrc hnot => ?_, fun htr hc hrc hnot hb => ?_⟩
  · obtain ⟨l, htell, href⟩ := tells_before_ret hf (htr ▸ h) hnot
    rw [hrc] at href
    cases href with
    | full _ hfull => exact htell.2 hb hfull
    | tooLarge h => exact absurd h (by decide)
    | contention h => exact absurd h (by decide)
    | empty h => exact absurd h (by decide)
    | writing h => exact absurd h (by decide)
  · obtain ⟨l, htell, href⟩ := tells_before_ret hf (htr ▸ h) hnot
    rw [hrc] at href
    cases href with
    | contention _ => exact htell
    | tooLarge h => exact absurd h (by decide)
    | full h _ => exact absurd h (by decide)
    | empty h => exact absurd h (by decide)
    | writing h => exact absurd h (by decide)
  · obtain ⟨l, htell, href⟩ := tells_before_ret hf (htr ▸ h) hnot
    rw [hrc] at href
    cases href with
    | empty _ => exact htell
    | tooLarge h => exact absurd h (by decide)
    | full h _ => exact absurd h (by decide)
    | contention h => exact absurd h (by decide)
    | writing h => exact absurd h (by decide)
  · obtain ⟨l, htell, href⟩ := tells_before_ret hf (htr ▸ h) hnot
    rw [hrc] at href
    cases href with
    | writing _ => exact htell hb
    | tooLarge h => exact absurd h (by decide)
    | full h _ => exact absurd h (by decide)
    | contention h => exact absurd h (by decide)
    | empty h => exact absurd h (by decide)

/-! ## Undisturbed runs -/

section Undisturbed

variable {tr₁ tr₂ : List (Ev Tid r.objSize)} {v : Ret}

/-- A call that has taken a position, or given one back, returns it, unless its callback answers. -/
theorem returned_of_took (hf : Fresh r m₀)
    (h : Run (sys r Tid) (.start m₀) (tr₁ ++ .ret t id c v :: tr₂) cf) (htook : Took tr₁ t id) :
    (∃ args p, c = .push args ∧ ⟨t, id, c, p⟩ ∈ pushClaims tr₁ ∧ v.rc = toSsize p) ∨
      ∃ d, ⟨t, id, c, d⟩ ∈ popClaims tr₁ ∧ c.pops = true ∧
        ∀ others size, c = .pop others size → v.rc = toSsize d := by
  obtain ⟨n, m, R, l, -, hw, ht, hfin⟩ :=
    Inductive.before_ret (follows r Tid) (watched_inductive hf) h
  have hof : l.Of c := hw.known.role t _ ht
  have hnone : l.pushPos = none → l.popPos = none → False := by
    obtain ⟨k, hk | hk, -, hid⟩ := htook
    · exact fun hpush _ => hw.known.push.other t _ ht hpush k hk hid
    · exact fun _ hpop => hw.known.pop.other t _ ht hpop k hk hid
  cases l with
  | pushed p =>
    obtain ⟨args, rfl⟩ := hof
    obtain rfl : v = ⟨toSsize p, []⟩ := hfin
    exact .inl ⟨args, p, rfl, hw.known.push.own t _ p ht rfl, rfl⟩
  | popped c' d bs =>
    obtain ⟨rfl, hpops, -⟩ := hof
    refine .inr ⟨d, hw.known.pop.own t _ d ht rfl, hpops, fun others size hc => ?_⟩
    subst hc
    obtain rfl : v = ⟨toSsize d, bs⟩ := hfin
    rfl
  | filling => exact hfin.elim
  | _ => exact (hnone rfl rfl).elim

/-- A push that returns a code has taken no position. -/
theorem Undisturbed.push_took {args : List Byte} (hf : Fresh r m₀)
    (h : Run (sys r Tid) (.start m₀) (tr₁ ++ .ret t id (.push args) v :: tr₂) cf)
    (hu : Undisturbed r (tr₁ ++ .ret t id (.push args) v :: tr₂)) (hrc : v.rc ∈ pushCodes) :
    ¬ Took tr₁ t id := by
  intro htook
  rcases returned_of_took hf h htook with ⟨-, p, -, hp, hv⟩ | ⟨-, -, hpops, -⟩
  · rw [hv] at hrc
    exact hu.pushPos _ (mem_claims_append hp _) hrc
  · cases hpops

theorem Undisturbed.pop_took (hf : Fresh r m₀)
    (h : Run (sys r Tid) (.start m₀) (tr₁ ++ .ret t id c v :: tr₂) cf)
    (hu : Undisturbed r (tr₁ ++ .ret t id c v :: tr₂)) (hc : c.pops = true)
    (hrc : v.rc ∈ popCodes) : ¬ Took tr₁ t id := by
  intro htook
  rcases returned_of_took hf h htook with ⟨args, -, rfl, -, -⟩ | ⟨d, hd, -, hv⟩
  · cases hc
  cases c with
  | push args => cases hc
  | pop others size =>
    rw [hv others size rfl] at hrc
    exact hu.popPos _ (mem_claims_append hd _) others size rfl hrc
  | popWCb others cb =>
    -- The call has stored the tail, so it returns what its callback has answered.
    rcases (takes_popWCb h.takes).2 with ⟨-, hnone⟩ | ⟨-, reads, -, -, hreads, -⟩
    · obtain ⟨o, x, hop, hx⟩ := exists_op_of_mem_claims hd
      rw [hnone _ (mem_opsOf hop)] at hx
      cases hx
    · have hcall := h.ret_called (List.mem_append_right _ (List.mem_cons_self ..))
      exact hu.callback hcall hreads hrc

theorem Undisturbed.meant (hf : Fresh r m₀) (h : Run (sys r Tid) (.start m₀) tr cf)
    (hu : Undisturbed r tr) : Meant r tr := by
  have hcodes := hf.codes h
  refine ⟨fun htr hrc => ?_, fun htr hrc => ?_, fun htr hc hrc => ?_, fun htr hc hrc => ?_⟩
  · subst htr
    have hnot := hu.push_took hf h (by simp [pushCodes, hrc])
    exact (hcodes.full rfl hrc hnot hu.timely.of_append).resolve_right fun hp =>
      hu.passed _ _ (hp.append _)
  · subst htr
    exact hcodes.contention rfl hrc (hu.push_took hf h (by simp [pushCodes, hrc]))
  · subst htr
    exact hcodes.empty rfl hc hrc (hu.pop_took hf h hc (by simp [popCodes, hrc]))
  · subst htr
    have hnot := hu.pop_took hf h hc (by simp [popCodes, hrc])
    exact (hcodes.writing rfl hc hrc hnot hu.timely.of_append).resolve_right fun hp =>
      hu.fooled _ _ (hp.append _)

end Undisturbed

/-- **The Mpsc error codes mean what they say**, for calls that took no position; and in undisturbed
runs for all calls. -/
theorem mpsc_codes (h : Run (sys r Tid) (.start (getBuf r .mpscSlot m₀)) tr cf) :
    Codes r tr cf.shared ∧ (Undisturbed r tr → Meant r tr) :=
  ⟨(fresh_getBuf m₀).codes h, fun hu => hu.meant (fresh_getBuf m₀) h⟩

/-- A pop from an empty ring, and one push more than the ring has room for. -/
def refusals : List (Bool × Call tinyRing.objSize) :=
  [(false, .pop none 0), (true, .push []), (true, .push []), (true, .push [])]

/-- The history of these calls. -/
def refusalsTrace : List (Ev Bool tinyRing.objSize) :=
  seqTrace exec (body tinyRing) refusals 0 (getBuf tinyRing .mpscSlot .zero)

/-- The slot that an operation loads. -/
def loadedSlot : (o : Op SizeT) → o.Res → Option SizeT
  | .loadSlot i, _ => some i
  | _, _ => none

theorem refusals_undisturbed : Undisturbed tinyRing refusalsTrace := by
  have hpops : popClaims refusalsTrace = [] := rfl
  have hslots : claims loadedSlot refusalsTrace = [] := rfl
  refine ⟨timely_of_lt (by decide), ?_, ?_, by decide, by simp [hpops], ?_⟩
  · rintro t id ⟨tr₁, tr₂, tr₃, c, h, d, htr, hlt⟩
    have hle : (popClaims (tr₁ ++ .op t id c .loadHead h :: tr₂)).length ≤
        (popClaims refusalsTrace).length :=
      htr ▸ length_claims_le (.op t id c .loadTail d :: tr₃)
    have hlt' : (pushClaims tr₁).length < (popClaims refusalsTrace).length :=
      Nat.lt_of_lt_of_le hlt hle
    rw [hpops] at hlt'
    cases hlt'
  · rintro t id ⟨tr₁, tr₂, tr₃, c, v, st, htr, -, -⟩
    have hmem : ⟨t, id, c, word (popClaims tr₁).length &&& tinyRing.mask⟩ ∈
        claims loadedSlot refusalsTrace := by
      rw [htr, claims_append]
      exact List.mem_append_right _ (List.mem_cons_self ..)
    rw [hslots] at hmem
    cases hmem
  · intro t id others cb ops v hcall
    have hmem : (t, .popWCb others cb) ∈ refusals := mem_of_call_mem_seqTrace hcall
    simp [refusals] at hmem

theorem mpsc_codes_refusals :
    Codes tinyRing refusalsTrace
      (seqState exec (body tinyRing) refusals (getBuf tinyRing .mpscSlot .zero)) ∧
    Meant tinyRing refusalsTrace :=
  have h := mpsc_codes (Run.seq refusals (fun _ _ _ _ _ => nofun) 0 _)
  ⟨h.1, h.2 refusals_undisturbed⟩

/-! ## Codes that say something else -/

omit [DecidableEq Tid] in
/-- A call that takes and gives back nothing sees one difference all the time. -/
theorem Held.quiet {n : Nat} {d : SizeT} {tr tr' : List (Ev Tid n)} (h : Held d (tr ++ tr') t id)
    (hnew : ∀ e ∈ tr, e.id ≠ id) (hpush : pushClaims tr' = []) (hpop : popClaims tr' = []) :
    word (pushClaims tr).length - word (popClaims tr).length = d := by
  obtain ⟨k, -, hk⟩ := Moment.after h hnew
  have none_of {take : (o : Op SizeT) → o.Res → Option SizeT} (hnil : claims take tr' = []) :
      claims take (tr'.take k) = [] := by
    rw [← List.take_append_drop k tr', claims_append] at hnil
    exact (List.append_eq_nil_iff.1 hnil).1
  rw [pushClaims, popClaims, claims_append, claims_append, none_of hpush, none_of hpop,
    List.append_nil, List.append_nil] at hk
  exact hk

/-- A callback that answers `RINGBUF_EMPTY`. -/
def denies : Callback tinyRing.objSize := ⟨ringbufEmpty, .ret ringbufEmpty⟩

/-- Two pushes, and a pop with this callback. -/
def pushPushDenied : List (Bool × Call tinyRing.objSize) :=
  [(true, .push []), (true, .push []), (false, .popWCb none denies)]

theorem empty_after_pop : ∃ tr cf,
    Run (sys tinyRing Bool) (.start (getBuf tinyRing .mpscSlot .zero))
      (tr ++ [.ret false 2 (.popWCb none denies) ⟨ringbufEmpty, []⟩]) cf ∧
    ¬ Held 0 tr false 2 := by
  let tr := seqTrace exec (body tinyRing) pushPushDenied 0 (getBuf tinyRing .mpscSlot .zero)
  have hrun : Run (sys tinyRing Bool) (.start (getBuf tinyRing .mpscSlot .zero)) tr _ :=
    Run.seq pushPushDenied (fun _ _ _ _ _ => nofun) 0 _
  have htr : tr = (tr.take 12 ++ (tr.drop 12).dropLast) ++
    [.ret false 2 (.popWCb none denies) ⟨ringbufEmpty, []⟩] := rfl
  rw [htr] at hrun
  refine ⟨_, _, hrun, fun h => ?_⟩
  obtain ⟨k, hk, hzero⟩ := Moment.after h (by decide)
  revert k
  decide

/-- Thread `true` is in a push, thread `false` is idle. -/
def asleep (p : Prog (Op SizeT) Op.Res Empty Ret) :
    Bool → Thread (Op SizeT) Op.Res Empty (Call tinyRing.objSize) Ret :=
  Function.update (fun _ => .idle) true (.run 0 (.push []) p)

theorem run_asleep {ops : List ((o : Op SizeT) × o.Res)} {p : Prog (Op SizeT) Op.Res Empty Ret}
    {m : Mem SizeT Bool}
    (h : Along (sys tinyRing Bool) true ((sys tinyRing Bool).body (.push [])) m ops p m) :
    Run (sys tinyRing Bool) (.start m) (.call true 0 (.push []) :: opEvents true 0 (.push []) ops)
      ⟨m, asleep p, 1⟩ := by
  have hallow : (sys tinyRing Bool).allow (fun _ => none) true (.push []) := fun h => nomatch h
  exact Run.enter rfl hallow h

theorem run_awake {p : Prog (Op SizeT) Op.Res Empty Ret} (cs : List (Call tinyRing.objSize))
    (n : Nat) (m : Mem SizeT Bool) :
    Run (sys tinyRing Bool) ⟨m, asleep p, n⟩
      (seqTrace exec (body tinyRing) (cs.map (false, ·)) n m)
      ⟨seqState exec (body tinyRing) (cs.map (false, ·)) m, asleep p,
        n + (cs.map (false, ·)).length⟩ := by
  have hidle : ∀ x ∈ cs.map (false, ·), asleep p x.1 = .idle := by
    intro x hx
    obtain ⟨c, -, rfl⟩ := List.mem_map.1 hx
    rfl
  have hallow : ∀ x ∈ cs.map (false, ·),
      (sys tinyRing Bool).allow (fun u => (asleep p u).call?) x.1 x.2 := by
    intro x _ _ u c' hu
    cases u with
    | false => cases hu
    | true =>
      obtain rfl : .push [] = c' := Option.some.inj hu
      rfl
  exact Run.calls (cs.map (false, ·)) hidle hallow n m

/-- A push that has loaded `0` from the head and then loads `1` from the tail is told full. -/
theorem overrun {m : Mem SizeT Bool} (hhead : m.head = 0) :
    ∃ p, Along (sys tinyRing Bool) true ((sys tinyRing Bool).body (.push [])) m
        [⟨.loadHead, 0⟩] p m ∧
      ∀ m' : Mem SizeT Bool, m'.tail = 1 →
        Alone (sys tinyRing Bool) true p m' [⟨.loadTail, 1⟩] ⟨ringbufFull, []⟩ m' := by
  refine ⟨_, .op (congrArg (·, m) hhead) .refl, fun m' htail => ?_⟩
  refine .op (congrArg (·, m') htail) ?_
  show Alone (sys tinyRing Bool) true (.ret (⟨ringbufFull, []⟩ : Ret)) m' [] _ m'
  exact .ret

theorem full_after_pop : ∃ tr cf,
    Run (sys tinyRing Bool) (.start (getBuf tinyRing .mpscSlot .zero))
      (tr ++ [.ret true 0 (.push []) ⟨ringbufFull, []⟩]) cf ∧
    ¬ Held tinyRing.objNum tr true 0 := by
  let m₀ : Mem SizeT Bool := getBuf tinyRing .mpscSlot .zero
  let m₁ : Mem SizeT Bool :=
    seqState exec (body tinyRing) [(false, .push []), (false, .pop none 0)] m₀
  obtain ⟨p, hload, hfull⟩ := overrun (rfl : m₀.head = 0)
  have h₁ := (run_asleep hload).trans (run_awake [.push [], .pop none 0] 1 m₀)
  have htail : m₁.tail = 1 := by decide
  have hfinish := Run.finish (hfull m₁ htail) (c := ⟨m₁, asleep p, 3⟩) (rfl : asleep p true = _) rfl
  have h₂ := h₁.trans hfinish
  rw [← List.append_assoc] at h₂
  refine ⟨_, _, h₂, fun h => ?_⟩
  rw [← List.nil_append (_ ++ opEvents ..)] at h
  obtain ⟨k, hk, hfull⟩ := Moment.after h nofun
  revert k
  decide

/-- A pop by a thread whose other ring has left `5` in `local_head`. -/
def strayPop : List (Bool × Call tinyRing.objSize) := [(false, .pop (some 5) 0)]

/-- It takes an empty ring for one that is being written. -/
theorem writing_on_empty : ∃ tr cf,
    Run (sys tinyRing Bool) (.start (getBuf tinyRing .mpscSlot .zero))
      (tr ++ [.ret false 0 (.pop (some 5) 0) ⟨ringbufSlotWritingData, []⟩]) cf ∧
    ¬ Unwritten tinyRing tr false 0 := by
  let tr := seqTrace exec (body tinyRing) strayPop 0 (getBuf tinyRing .mpscSlot .zero)
  have hrun : Run (sys tinyRing Bool) (.start (getBuf tinyRing .mpscSlot .zero)) tr _ :=
    Run.seq strayPop (fun _ _ _ _ _ => nofun) 0 _
  have htr : tr = tr.dropLast ++ [.ret false 0 (.pop (some 5) 0) ⟨ringbufSlotWritingData, []⟩] :=
    rfl
  refine ⟨tr.dropLast, _, htr ▸ hrun, ?_⟩
  rintro ⟨tr₁, tr₂, c, st, k, hsplit, hk, -⟩
  have hmem : k ∈ pushClaims tr.dropLast := by
    rw [hsplit]
    exact mem_claims_append (List.mem_of_getElem? hk) _
  have hnone : pushClaims tr.dropLast = [] := rfl
  rw [hnone] at hmem
  cases hmem

/-- Both slots are empty, and so is the ring; thread `false` has kept the head. -/
structure Turned (n : Nat) (m : Mem SizeT Bool) : Prop where
  head : m.head = word n
  tail : m.tail = word n
  cache : m.localHead false = word n
  slot : ∀ i < 2, m.slot i = slotEmpty

theorem run_push_filled {m : Mem SizeT Bool} (h : ¬ m.head - m.tail ≥ tinyRing.objNum) :
    ((body tinyRing (.push [])).run (exec false) m).2 = filled tinyRing m [] := by
  show ((pushMpscRingBuf tinyRing [] >>= _).run (exec false) m).2 = _
  rw [Prog.run_bind, run_push (Nat.zero_le _), if_neg h]
  rfl

theorem run_pop_givenBack {m : Mem SizeT Bool} (hcache : m.localHead false = m.tail)
    (hne : m.head ≠ m.tail) (hslot : tailStat tinyRing m = slotValid) :
    ((body tinyRing (.pop none 0)).run (exec false) m).2 =
      givenBack tinyRing (tested false m) := by
  have htest : testedHead false m = m.head := if_pos hcache
  show ((popMpscRingBuf tinyRing 0 >>= _).run (exec false) m).2 = _
  rw [Prog.run_bind, run_pop (Nat.zero_le _), htest, if_neg hne, hslot]
  rfl

theorem Turned.next_turn {n : Nat} {m : Mem SizeT Bool} (h : Turned n m) :
    Turned (n + 1) (seqState exec (body tinyRing) [(false, .push []), (false, .pop none 0)] m) := by
  have hroom : ¬ m.head - m.tail ≥ tinyRing.objNum := by
    rw [h.head, h.tail, BitVec.sub_self]
    decide
  have hpush : seqState exec (body tinyRing) [(false, .push []), (false, .pop none 0)] m =
      ((body tinyRing (.pop none 0)).run (exec false) (filled tinyRing m [])).2 := by
    rw [← run_push_filled hroom]
    rfl
  have hne : (filled tinyRing m []).head ≠ m.tail := by
    show m.head + 1 ≠ m.tail
    rw [h.head, h.tail, word_succ]
    intro heq
    have := (word_inj (Nat.le_succ n) (by omega)).1 heq
    omega
  have hindex : toNat (m.tail &&& tinyRing.mask) = toNat (m.head &&& tinyRing.mask) := by
    rw [h.head, h.tail]
  have hstat : tailStat tinyRing (filled tinyRing m []) = slotValid := by
    show Function.update m.slot _ slotValid (toNat (m.tail &&& tinyRing.mask)) = _
    rw [hindex, Function.update_self]
  have hcache : (filled tinyRing m []).localHead false = m.tail := h.cache.trans h.tail.symm
  rw [hpush, run_pop_givenBack hcache hne hstat]
  refine ⟨?_, ?_, ?_, fun i hi => ?_⟩
  · show m.head + 1 = word (n + 1)
    rw [h.head, word_succ]
  · show m.tail + 1 = word (n + 1)
    rw [h.tail, word_succ]
  · have htest : testedHead false (filled tinyRing m []) = m.head + 1 := if_pos hcache
    show Function.update m.localHead false (testedHead false (filled tinyRing m [])) false = _
    rw [Function.update_self, htest, h.head, word_succ]
  · show Function.update (Function.update m.slot _ slotValid)
      (toNat (m.tail &&& tinyRing.mask)) slotEmpty i = slotEmpty
    rw [hindex, Function.update_idem]
    by_cases hk : i = toNat (m.head &&& tinyRing.mask)
    · rw [hk, Function.update_self]
    · rw [Function.update_of_ne hk, h.slot i hi]

theorem turns {p : Prog (Op SizeT) Op.Res Empty Ret} (j : Nat) {n k : Nat} {m : Mem SizeT Bool}
    (h : Turned n m) : ∃ tr m', Run (sys tinyRing Bool) ⟨m, asleep p, k⟩ tr
      ⟨m', asleep p, k + 2 * j⟩ ∧ Turned (n + j) m' := by
  obtain ⟨tr, m', hrun, h', -⟩ := Run.rounds (Q := fun _ _ => True) trivial
    (fun _ _ _ _ _ => trivial)
    (fun _ m k h => ⟨_, _, run_awake [.push [], .pop none 0] k m, h.next_turn, trivial⟩) j h
  exact ⟨tr, m', hrun, h'⟩

/-- A push that has loaded `0` from both counters takes position `0` whenever the head is `0`. -/
theorem awakes {m : Mem SizeT Bool} (hhead : m.head = 0) (htail : m.tail = 0) :
    ∃ p, Along (sys tinyRing Bool) true ((sys tinyRing Bool).body (.push [])) m
        [⟨.loadHead, 0⟩, ⟨.loadTail, 0⟩] p m ∧
      ∀ m' : Mem SizeT Bool, m'.head = 0 → Alone (sys tinyRing Bool) true p m'
        [⟨.casHead 0 1, true⟩, ⟨.storeSlot (0 &&& tinyRing.mask) slotValid, ()⟩] ⟨toSsize 0, []⟩
        (filled tinyRing m' []) := by
  refine ⟨_, .op (congrArg (·, m) hhead) (.op (congrArg (·, m) htail) .refl), fun m' hh => ?_⟩
  refine .op (if_pos hh) (.op ?_ .ret)
  rw [filled, hh]
  rfl

theorem alone_full {m : Mem SizeT Bool} (hhead : m.head = word (2 ^ 64 + 1))
    (htail : m.tail = word (2 ^ 64 - 2)) :
    Alone (sys tinyRing Bool) false ((sys tinyRing Bool).body (.push [])) m
      [⟨.loadHead, word (2 ^ 64 + 1)⟩, ⟨.loadTail, word (2 ^ 64 - 2)⟩] ⟨ringbufFull, []⟩ m := by
  refine .op (congrArg (·, m) hhead) (.op (congrArg (·, m) htail) ?_)
  show Alone (sys tinyRing Bool) false (.ret (⟨ringbufFull, []⟩ : Ret)) m [] _ m
  exact .ret

/-- Thread `true` loads both counters of a new ring and sleeps, while the head comes back to `0`
with the ring full. Its push then puts a third element into a ring of two. -/
theorem full_after_wrap : ∃ tr id cf,
    Run (sys tinyRing Bool) (.start (getBuf tinyRing .mpscSlot .zero))
      (tr ++ [.ret false id (.push []) ⟨ringbufFull, []⟩]) cf ∧
    ¬ Held tinyRing.objNum tr false id := by
  let m₀ : Mem SizeT Bool := getBuf tinyRing .mpscSlot .zero
  have hf : Fresh tinyRing m₀ := fresh_getBuf _
  obtain ⟨p, hload, hcas⟩ := awakes (rfl : m₀.head = 0) rfl
  obtain ⟨tr, m, hturns, hm⟩ := turns (p := p) (k := 1) (2 ^ 64 - 2)
    (⟨rfl, rfl, rfl, hf.slot⟩ : Turned 0 m₀)
  rw [Nat.zero_add] at hm
  -- Two more pushes fill the ring and bring the head back to `0`.
  let m₁ := filled tinyRing m []
  let m₂ := filled tinyRing m₁ []
  let m₃ := filled tinyRing m₂ []
  have hhead₁ : m₁.head = word (2 ^ 64 - 1) := congrArg (· + 1) hm.head
  have hhead₂ : m₂.head = word (2 ^ 64) := congrArg (· + 1) hhead₁
  have hhead₃ : m₃.head = word (2 ^ 64 + 1) := congrArg (· + 1) hhead₂
  have htail₁ : m₁.tail = word (2 ^ 64 - 2) := hm.tail
  have hroom : ¬ m.head - m.tail ≥ tinyRing.objNum := by
    rw [hm.head, hm.tail]
    decide
  have hroom₁ : ¬ m₁.head - m₁.tail ≥ tinyRing.objNum := by
    rw [hhead₁, htail₁]
    decide
  have hpush : seqState exec (body tinyRing) [(false, .push []), (false, .push [])] m = m₂ := by
    show ((body tinyRing (.push [])).run (exec false)
      ((body tinyRing (.push [])).run (exec false) m).2).2 = m₂
    rw [run_push_filled hroom, run_push_filled hroom₁]
  let k := 1 + 2 * (2 ^ 64 - 2) + 2
  have hpushes : Run (sys tinyRing Bool) ⟨m, asleep p, 1 + 2 * (2 ^ 64 - 2)⟩ _ ⟨m₂, asleep p, k⟩ :=
    hpush ▸ run_awake [.push [], .push []] (1 + 2 * (2 ^ 64 - 2)) m
  let th := Function.update (asleep p) true .idle
  have hwake : Run (sys tinyRing Bool) ⟨m₂, asleep p, k⟩ _ ⟨m₃, th, k⟩ :=
    Run.finish (hcas m₂ hhead₂) rfl rfl
  obtain ⟨before, hbefore⟩ : ∃ before, Run (sys tinyRing Bool) (.start m₀) before ⟨m₃, th, k⟩ :=
    ⟨_, (((run_asleep hload).trans hturns).trans hpushes).trans hwake⟩
  have hallow : (sys tinyRing Bool).allow (fun u => (th u).call?) false (.push []) :=
    fun h => nomatch h
  have hfull : Run (sys tinyRing Bool) ⟨m₃, th, k⟩ _ ⟨m₃, th, k + 1⟩ :=
    Run.alone rfl hallow (alone_full hhead₃ htail₁)
  refine ⟨before ++ (.call false k (.push []) :: opEvents false k (.push [])
    [⟨.loadHead, word (2 ^ 64 + 1)⟩, ⟨.loadTail, word (2 ^ 64 - 2)⟩]), k, _,
    by rw [List.append_assoc]; exact hbefore.trans hfull, fun h => ?_⟩
  obtain ⟨R, -, hid, -, hw⟩ := (known_inductive.and (words_inductive hf)).run
    (follows tinyRing Bool) hbefore
  have hheld := h.quiet (fun e he => Nat.ne_of_lt (hid.history e he)) rfl rfl
  have htail₃ : m₃.tail = word (2 ^ 64 - 2) := htail₁
  rw [← hw.head, ← hw.tail, hhead₃, htail₃] at hheld
  revert hheld
  decide

/-- A callback may return any code after the call has taken an element; a push may be told full on a
ring that is not full, or has three elements in place of two; a pop may take an empty ring for one
that is being written. -/
theorem mpsc_codes_not :
    (∃ tr cf, Run (sys tinyRing Bool) (.start (getBuf tinyRing .mpscSlot .zero))
        (tr ++ [.ret false 2 (.popWCb none denies) ⟨ringbufEmpty, []⟩]) cf ∧
      ¬ Held 0 tr false 2) ∧
    (∃ tr cf, Run (sys tinyRing Bool) (.start (getBuf tinyRing .mpscSlot .zero))
        (tr ++ [.ret true 0 (.push []) ⟨ringbufFull, []⟩]) cf ∧
      ¬ Held tinyRing.objNum tr true 0) ∧
    (∃ tr id cf, Run (sys tinyRing Bool) (.start (getBuf tinyRing .mpscSlot .zero))
        (tr ++ [.ret false id (.push []) ⟨ringbufFull, []⟩]) cf ∧
      ¬ Held tinyRing.objNum tr false id) ∧
    ∃ tr cf, Run (sys tinyRing Bool) (.start (getBuf tinyRing .mpscSlot .zero))
        (tr ++ [.ret false 0 (.pop (some 5) 0) ⟨ringbufSlotWritingData, []⟩]) cf ∧
      ¬ Unwritten tinyRing tr false 0 :=
  ⟨empty_after_pop, full_after_pop, full_after_wrap, writing_on_empty⟩

end Mpsc

end RingBuf
