import RingBuf.Mpmc.Alone
import RingBuf.Mpmc.Outcome
import RingBuf.Window

/-!
# What the Mpmc error codes mean

A call of the Mpmc ring decides by the sign of a difference between a counter and a slot word
that it has read one after the other. As no slot word ever decreases, what it saw then bounds
what had happened by then.

* `mpmc_codes`: what each code says about the history, for calls that did not enter a callback.
* `mpmc_codes_not`: a callback may return any code, and a push that sleeps while half the range
  of `size_t` goes by is told full.
-/

namespace RingBuf

open Conc Word LawfulWord

namespace Mpmc

variable {Tid : Type} {r : Ring SizeT} {tr tr₁ tr₂ : List (Ev SizeT Tid r.objSize)} {t : Tid}
  {id : Nat} {c : Call r.objSize} {m : Mem SizeT Tid} {R : MRoles Tid SizeT r.objSize}

/-! ## The meaning of the codes -/

/-- The pop that claimed position `k` has stored its slot word. -/
def Released (r : Ring SizeT) (tr : List (Ev SizeT Tid r.objSize)) (k : Nat) : Prop :=
  ∃ t id c d, ⟨t, id, c, d⟩ ∈ popClaims tr ∧ toNat d = k ∧
    .op t id c (.storeSlot (d &&& r.mask) (d + r.objNum)) () ∈ tr

/-- When the call read the slot of the head it had read, the `r.cap` positions before were claimed
and the oldest of them was not released. -/
def SawFull (r : Ring SizeT) (tr : List (Ev SizeT Tid r.objSize)) (t : Tid) (id : Nat) : Prop :=
  ∃ tr₁ tr₂ tr₃ c h seq, tr = tr₁ ++ .op t id c .loadHead h :: tr₂ ++
      .op t id c (.loadSlot (h &&& r.mask)) seq :: tr₃ ∧
    r.cap ≤ toNat h ∧
    (∀ p, toNat h ≤ p + r.cap → p < toNat h →
      ∃ k ∈ pushClaims (tr₁ ++ .op t id c .loadHead h :: tr₂), toNat k.pos = p) ∧
    ¬ Released r (tr₁ ++ .op t id c .loadHead h :: tr₂) (toNat h - r.cap)

/-- Between the call's load of the head and that of its slot, no fewer than `2 ^ 63 - r.cap`
positions were claimed by pushes. -/
def Lapped (r : Ring SizeT) (tr : List (Ev SizeT Tid r.objSize)) (t : Tid) (id : Nat) : Prop :=
  ∃ tr₁ tr₂ tr₃ c h seq, tr = tr₁ ++ .op t id c .loadHead h :: tr₂ ++
      .op t id c (.loadSlot (h &&& r.mask)) seq :: tr₃ ∧
    2 ^ 63 ≤ (pushClaims tr₂).length + r.cap

/-- When the call read the slot of the tail it had read, the push of that position had not stored
its number. -/
def SawEmpty (r : Ring SizeT) (tr : List (Ev SizeT Tid r.objSize)) (t : Tid) (id : Nat) : Prop :=
  ∃ tr₁ tr₂ tr₃ c d seq, tr = tr₁ ++ .op t id c .loadTail d :: tr₂ ++
      .op t id c (.loadSlot (d &&& r.mask)) seq :: tr₃ ∧
    ∀ args, ¬ Pushed r (tr₁ ++ .op t id c .loadTail d :: tr₂) (toNat d) args

/-- After the call has performed `o`, another thread's operation has taken something. -/
def Overtaken {n : Nat} (o : Op SizeT) (take : (o : Op SizeT) → o.Res → Option SizeT)
    (tr : List (Ev SizeT Tid n)) (t : Tid) (id : Nat) : Prop :=
  ∃ tr₁ tr₂ c x, tr = tr₁ ++ .op t id c o x :: tr₂ ∧ ∃ k ∈ claims take tr₂, k.thread ≠ t

/-- What the error codes of the history `tr` mean. -/
structure Codes (r : Ring SizeT) (tr : List (Ev SizeT Tid r.objSize)) : Prop where
  full : ∀ {tr₁ tr₂ t id args v}, tr = tr₁ ++ .ret t id (.push args) v :: tr₂ →
    v.rc = ringbufFull → SawFull r tr₁ t id ∨ Lapped r tr₁ t id
  empty : ∀ {tr₁ tr₂ t id c v}, tr = tr₁ ++ .ret t id c v :: tr₂ → (∀ args, c ≠ .push args) →
    v.rc = ringbufEmpty → (∀ cb, c = .popWCb cb → Uncalled tr₁ t id) → SawEmpty r tr₁ t id
  push_contention : ∀ {tr₁ tr₂ t id args v}, tr = tr₁ ++ .ret t id (.push args) v :: tr₂ →
    v.rc = ringbufContention → Overtaken .loadHead takeHead tr₁ t id
  pop_contention : ∀ {tr₁ tr₂ t id c v}, tr = tr₁ ++ .ret t id c v :: tr₂ →
    (∀ args, c ≠ .push args) → v.rc = ringbufContention →
    (∀ cb, c = .popWCb cb → Uncalled tr₁ t id) → Overtaken .loadTail takeTail tr₁ t id
  untouched : ∀ {tr₁ tr₂ t id c v}, tr = tr₁ ++ .ret t id c v :: tr₂ →
    v.rc ∈ [ringbufFull, ringbufEmpty, ringbufContention, ringbufPushSizeTooLarge,
      ringbufPopSizeTooLarge] → (∀ cb, c = .popWCb cb → Uncalled tr₁ t id) → Untouched tr₁ t id

variable [DecidableEq Tid] {m₀ : Mem SizeT Tid} {tr₃ : List (Ev SizeT Tid r.objSize)}
  {cf : Config (Op SizeT) Op.Res Empty Tid (Call r.objSize) Ret (Mem SizeT Tid)} {x d seq : SizeT}

/-! ## What was true when the counter was read -/

theorem head_since (hf : Fresh r m₀)
    (h : Run (sys r Tid) (.start m₀) (tr₁ ++ .op t id c .loadHead x :: tr₂ ++ tr₃) cf)
    (hb : NoOverflow r (tr₁ ++ .op t id c .loadHead x :: tr₂ ++ tr₃))
    (hw : Watched r (tr₁ ++ .op t id c .loadHead x :: tr₂) m R) :
    toNat m.head = toNat x + (pushClaims tr₂).length := by
  rw [List.append_assoc] at h hb
  obtain ⟨m₁, m₁', R₁, l, l', hw₁, -, -, he⟩ := watched_before_op hf h hb
  obtain ⟨rfl, -⟩ := Prod.mk.inj he
  rw [← hw.slots.head.length, ← hw₁.slots.head.length]
  exact length_claims_insert rfl

theorem tail_since (hf : Fresh r m₀)
    (h : Run (sys r Tid) (.start m₀) (tr₁ ++ .op t id c .loadTail d :: tr₂ ++ tr₃) cf)
    (hb : NoOverflow r (tr₁ ++ .op t id c .loadTail d :: tr₂ ++ tr₃))
    (hw : Watched r (tr₁ ++ .op t id c .loadTail d :: tr₂) m R) :
    toNat m.tail = toNat d + (popClaims tr₂).length := by
  rw [List.append_assoc] at h hb
  obtain ⟨m₁, m₁', R₁, l, l', hw₁, -, -, he⟩ := watched_before_op hf h hb
  obtain ⟨rfl, -⟩ := Prod.mk.inj he
  rw [← hw.slots.tail.length, ← hw₁.slots.tail.length]
  exact length_claims_insert rfl

theorem at_slot {w : SizeT} (hf : Fresh r m₀)
    (h : Run (sys r Tid) (.start m₀) (tr₁ ++ .op t id c (.loadSlot (w &&& r.mask)) seq :: tr₂) cf)
    (hb : NoOverflow r (tr₁ ++ .op t id c (.loadSlot (w &&& r.mask)) seq :: tr₂)) :
    ∃ m R, Watched r tr₁ m R ∧ m.slot (r.index (toNat w)) = seq := by
  obtain ⟨m, m', R, l, l', hw, -, -, he⟩ := watched_before_op hf h hb
  refine ⟨m, R, hw, ?_⟩
  rw [← r.toNat_and_mask]
  exact (Prod.mk.inj he).1

/-- The push is told full. -/
theorem sawFull_or_lapped (hf : Fresh r m₀)
    (h : Run (sys r Tid) (.start m₀) (tr₁ ++ .op t id c .loadHead x :: tr₂ ++
      .op t id c (.loadSlot (x &&& r.mask)) seq :: tr₃) cf)
    (hlt : (pushClaims (tr₁ ++ .op t id c .loadHead x :: tr₂ ++
      .op t id c (.loadSlot (x &&& r.mask)) seq :: tr₃)).length < 2 ^ 63) (hdif : dif seq x < 0) :
    SawFull r (tr₁ ++ .op t id c .loadHead x :: tr₂ ++
        .op t id c (.loadSlot (x &&& r.mask)) seq :: tr₃) t id ∨
      Lapped r (tr₁ ++ .op t id c .loadHead x :: tr₂ ++
        .op t id c (.loadSlot (x &&& r.mask)) seq :: tr₃) t id := by
  have hb := noOverflow_of_lt hlt
  obtain ⟨m, R, hw, hseq⟩ := at_slot hf h hb
  have hhead := head_since hf h hb hw
  have hsmall := hw.head_lt hlt
  by_cases hless : toNat seq < toNat x
  · -- The slot has not reached the number that the push of `x` waits for.
    have hcap : r.cap ≤ toNat x := by
      by_contra hcap
      have hstart := hw.grown.start (toNat x) (Nat.not_le.1 hcap)
      rw [Ring.index, Nat.mod_eq_of_lt (Nat.not_le.1 hcap)] at hseq
      rw [hseq] at hstart
      exact Nat.not_lt.2 hstart hless
    refine .inl ⟨tr₁, tr₂, tr₃, c, x, seq, rfl, hcap, fun p _ hp => ?_, ?_⟩
    · exact hw.slots.head.exists_mem (by omega)
    · rintro ⟨u, j, b, d, -, hd, hst⟩
      have hstored := hw.grown.stored u j b _ _ hst
      have hadd : toNat (d + r.objNum) = toNat d + r.cap :=
        toNat_add (show toNat d + r.cap < 2 ^ 64 by omega)
      have hlap : toNat d + r.cap = toNat x := by omega
      have hindex : r.index (toNat x) = r.index (toNat d) := mod_eq_of_add hlap
      rw [hadd, hlap, r.toNat_and_mask, ← hindex, hseq] at hstored
      exact Nat.not_lt.2 hstored hless
  · refine .inr ⟨tr₁, tr₂, tr₃, c, x, seq, rfl, ?_⟩
    by_contra hfew
    have hle : toNat m.tail ≤ toNat m.head := hw.slots.inv.tail_le
    have hnear := (hw.slots.inv.seq_near r.two_le_cap (toNat x)).2
    have hnear' : toNat (m.slot (r.index (toNat x))) ≤ toNat m.tail + r.cap := hnear
    rw [hseq] at hnear'
    rw [dif_eq_sub (by omega) (by omega)] at hdif
    omega

theorem sawEmpty (hf : Fresh r m₀)
    (h : Run (sys r Tid) (.start m₀) (tr₁ ++ .op t id c .loadTail d :: tr₂ ++
      .op t id c (.loadSlot (d &&& r.mask)) seq :: tr₃) cf)
    (hlt : (pushClaims (tr₁ ++ .op t id c .loadTail d :: tr₂ ++
      .op t id c (.loadSlot (d &&& r.mask)) seq :: tr₃)).length < 2 ^ 63)
    (hdif : dif seq (d + 1) < 0) :
    SawEmpty r (tr₁ ++ .op t id c .loadTail d :: tr₂ ++
      .op t id c (.loadSlot (d &&& r.mask)) seq :: tr₃) t id := by
  obtain ⟨m, R, hw, hseq⟩ := at_slot hf h (noOverflow_of_lt hlt)
  have hsmall := hw.head_lt hlt
  refine ⟨tr₁, tr₂, tr₃, c, d, seq, rfl, ?_⟩
  rintro args ⟨u, j, p, hp, hpd, hst⟩
  obtain rfl : p = d := toNat_inj hpd
  have hplt : toNat p < toNat m.head := hw.slots.head.lt hp
  have hsucc : toNat (p + 1) = toNat p + 1 := toNat_add (show toNat p + 1 < 2 ^ 64 by omega)
  have hstored := hw.grown.stored u j _ _ _ hst
  rw [r.toNat_and_mask, hseq, hsucc] at hstored
  have hfar : toNat (m.slot (r.index (toNat p))) < toNat p + 1 + 2 ^ 63 :=
    hw.slots.inv.seq_lt r.two_le_cap r.cap_dvd hsmall (toNat p)
  rw [hseq] at hfar
  rw [dif_eq_sub (by omega) (by omega), hsucc] at hdif
  omega

/-! ## What others have done since -/

theorem pushClaims_ne_of_dif (hf : Fresh r m₀)
    (h : Run (sys r Tid) (.start m₀) (tr₁ ++ .op t id c .loadHead x :: tr₂ ++
      .op t id c (.loadSlot (x &&& r.mask)) seq :: tr₃) cf)
    (hlt : (pushClaims (tr₁ ++ .op t id c .loadHead x :: tr₂ ++
      .op t id c (.loadSlot (x &&& r.mask)) seq :: tr₃)).length < 2 ^ 63) (hdif : dif seq x > 0) :
    pushClaims tr₂ ≠ [] := by
  intro hnil
  have hb := noOverflow_of_lt hlt
  obtain ⟨m, R, hw, hseq⟩ := at_slot hf h hb
  have hhead := head_since hf h hb hw
  have hsmall := hw.head_lt hlt
  rw [hnil, List.length_nil, Nat.add_zero] at hhead
  have hle : toNat (m.slot (r.index (toNat m.head))) ≤ toNat m.head :=
    hw.slots.inv.seq_head_le r.two_le_cap
  rw [hhead, hseq] at hle
  rw [dif_eq_sub (by omega) (by omega)] at hdif
  omega

theorem popClaims_ne_of_dif (hf : Fresh r m₀)
    (h : Run (sys r Tid) (.start m₀) (tr₁ ++ .op t id c .loadTail d :: tr₂ ++
      .op t id c (.loadSlot (d &&& r.mask)) seq :: tr₃) cf)
    (hlt : (pushClaims (tr₁ ++ .op t id c .loadTail d :: tr₂ ++
      .op t id c (.loadSlot (d &&& r.mask)) seq :: tr₃)).length < 2 ^ 63)
    (hdif : dif seq (d + 1) > 0) : popClaims tr₂ ≠ [] := by
  intro hnil
  have hb := noOverflow_of_lt hlt
  obtain ⟨m, R, hw, hseq⟩ := at_slot hf h hb
  have htail := tail_since hf h hb hw
  have hsmall := hw.head_lt hlt
  have htl : toNat m.tail ≤ toNat m.head := hw.slots.inv.tail_le
  rw [hnil, List.length_nil, Nat.add_zero] at htail
  have hsucc : toNat (d + 1) = toNat d + 1 := toNat_add (show toNat d + 1 < 2 ^ 64 by omega)
  have hle : toNat (m.slot (r.index (toNat m.tail))) ≤ toNat m.tail + 1 :=
    hw.slots.inv.seq_tail_le r.two_le_cap
  rw [htail, hseq] at hle
  rw [dif_eq_sub (by omega) (by omega), hsucc] at hdif
  omega

theorem pushClaims_ne_of_miss (hf : Fresh r m₀)
    (h : Run (sys r Tid) (.start m₀) (tr₁ ++ .op t id c .loadHead x :: tr₂ ++
      .op t id c (.casHead x d) false :: tr₃) cf)
    (hb : NoOverflow r (tr₁ ++ .op t id c .loadHead x :: tr₂ ++
      .op t id c (.casHead x d) false :: tr₃)) : pushClaims tr₂ ≠ [] := by
  intro hnil
  obtain ⟨m, m', R, l, l', hw, -, -, he⟩ := watched_before_op hf h hb
  have hhead := head_since hf h hb hw
  rw [hnil, List.length_nil, Nat.add_zero] at hhead
  exact exec_casHead_ne he (toNat_inj hhead)

theorem popClaims_ne_of_miss (hf : Fresh r m₀)
    (h : Run (sys r Tid) (.start m₀) (tr₁ ++ .op t id c .loadTail d :: tr₂ ++
      .op t id c (.casTail d x) false :: tr₃) cf)
    (hb : NoOverflow r (tr₁ ++ .op t id c .loadTail d :: tr₂ ++
      .op t id c (.casTail d x) false :: tr₃)) : popClaims tr₂ ≠ [] := by
  intro hnil
  obtain ⟨m, m', R, l, l', hw, -, -, he⟩ := watched_before_op hf h hb
  have htail := tail_since hf h hb hw
  rw [hnil, List.length_nil, Nat.add_zero] at htail
  exact exec_casTail_ne he (toNat_inj htail)

/-! ## Every run -/

theorem overtaken_of_claims {n : Nat} {tr₁ tr₂ tr₃ : List (Ev SizeT Tid n)}
    {c : Call n} {take : (o : Op SizeT) → o.Res → Option SizeT} {o : Op SizeT} {x : o.Res}
    {ops : List ((o : Op SizeT) × o.Res)} (hev : eventsOf t tr₂ = opEvents t id c ops)
    (hops : ∀ y ∈ ops, take y.1 y.2 = none) (hne : claims take tr₂ ≠ []) :
    Overtaken o take (tr₁ ++ .op t id c o x :: tr₂ ++ tr₃) t id := by
  obtain ⟨k, hk⟩ := List.exists_mem_of_ne_nil _ hne
  exact ⟨tr₁, tr₂ ++ tr₃, c, x, by simp, k, mem_claims_append hk tr₃,
    thread_ne_of_claim hev hops hk⟩

/-- **The Mpmc error codes mean what they say**, in every run of fewer than `2 ^ 63` pushes. -/
theorem mpmc_codes (h : Run (sys r Tid) (.start (getBuf r .mpmcSlot m₀)) tr cf)
    (hlt : (pushClaims tr).length < 2 ^ 63) : Codes r tr := by
  have hf : Fresh r (getBuf r .mpmcSlot m₀) := fresh_getBuf m₀
  -- The run up to a return, and what its call has done.
  have outcome {tr₁ tr₂ : List (Ev SizeT Tid r.objSize)} {t : Tid} {id : Nat}
      {c : Call r.objSize} {v : Ret} (htr : tr = tr₁ ++ .ret t id c v :: tr₂)
      (hun : ∀ cb, c = .popWCb cb → Uncalled tr₁ t id) :
      Outcome r tr₁ t id c v.rc ∧ (pushClaims tr₁).length < 2 ^ 63 ∧
        ∃ c₁, Run (sys r Tid) (.start (getBuf r .mpmcSlot m₀)) tr₁ c₁ := by
    subst htr
    obtain ⟨c₁, h₁, -⟩ := h.cut
    exact ⟨outcome_of_ret hf h hlt hun, Nat.lt_of_le_of_lt (length_claims_le _) hlt, c₁, h₁⟩
  refine ⟨fun htr hrc => ?_, fun htr hc hrc hun => ?_, fun htr hrc => ?_,
    fun htr hc hrc hun => ?_, fun htr hrc hun => ?_⟩
  · obtain ⟨ho, hlt, c₁, h₁⟩ := outcome htr (fun _ => nofun)
    obtain ⟨x, seq, hdif, hd⟩ := (hrc ▸ ho).of_full
    obtain ⟨tr₁, tr₂, tr₃, rfl, -⟩ := hd.pair
    exact sawFull_or_lapped hf h₁ hlt hdif
  · obtain ⟨ho, hlt, c₁, h₁⟩ := outcome htr hun
    obtain ⟨d, seq, hdif, hd⟩ := (hrc ▸ ho).of_empty
    obtain ⟨tr₁, tr₂, tr₃, rfl, -⟩ := hd.pair
    exact sawEmpty hf h₁ hlt hdif
  · obtain ⟨ho, hlt, c₁, h₁⟩ := outcome htr (fun _ => nofun)
    rcases (hrc ▸ ho).of_contention_push with ⟨x, seq, hdif, hd⟩ | ⟨x, seq, hd⟩
    · obtain ⟨tr₁, tr₂, tr₃, rfl, hev⟩ := hd.pair
      exact overtaken_of_claims hev (by simp) (pushClaims_ne_of_dif hf h₁ hlt hdif)
    · obtain ⟨tr₁, tr₂, tr₃, rfl, hev⟩ := hd.triple
      exact overtaken_of_claims hev (by simp [takeHead])
        (pushClaims_ne_of_miss hf h₁ (noOverflow_of_lt hlt))
  · obtain ⟨ho, hlt, c₁, h₁⟩ := outcome htr hun
    rcases (hrc ▸ ho).of_contention_pop hc with ⟨d, seq, hdif, hd⟩ | ⟨d, seq, hd⟩
    · obtain ⟨tr₁, tr₂, tr₃, rfl, hev⟩ := hd.pair
      exact overtaken_of_claims hev (by simp) (popClaims_ne_of_dif hf h₁ hlt hdif)
    · obtain ⟨tr₁, tr₂, tr₃, rfl, hev⟩ := hd.triple
      exact overtaken_of_claims hev (by simp [takeTail])
        (popClaims_ne_of_miss hf h₁ (noOverflow_of_lt hlt))
  · obtain ⟨ho, -, -, -⟩ := outcome htr hun
    have hneg : ∀ x ∈ [ringbufFull, ringbufEmpty, ringbufContention, ringbufPushSizeTooLarge,
      ringbufPopSizeTooLarge], x < 0 := by decide
    exact ho.untouched (hneg _ hrc)

/-- A pop from an empty ring, and one push more than the ring has room for. -/
def refusals : List (Bool × Call tinyRing.objSize) :=
  [(false, .pop 0), (true, .push []), (true, .push []), (true, .push [])]

theorem mpmc_codes_refusals :
    Codes tinyRing (seqTrace exec (body tinyRing) refusals 0 (getBuf tinyRing .mpmcSlot .zero)) :=
  mpmc_codes (Run.seq refusals (fun _ _ => trivial) 0 _) (by decide)

/-! ## Codes that say something else -/

/-- A callback that answers `RINGBUF_EMPTY`. -/
def denies : Callback tinyRing.objSize := ⟨ringbufEmpty, .ret ringbufEmpty⟩

/-- Both slots wait for a push, that of `n` or that of `n + 1`. -/
structure Turned (n : Nat) (m : Mem SizeT Bool) : Prop where
  head : m.head = word n
  tail : m.tail = word n
  slot : m.slot (n % 2) = word n
  next : m.slot ((n + 1) % 2) = word (n + 1)

theorem tiny_index (n : Nat) : toNat (word n &&& tinyRing.mask) = n % 2 :=
  (tinyRing.toNat_and_mask (word n)).trans (tinyRing.index_toNat_word n)

/-- The trail of a push that finds its slot free. -/
def pushOps (n : Nat) : List ((o : Op SizeT) × o.Res) :=
  [⟨.loadHead, word n⟩, ⟨.loadSlot (word n &&& tinyRing.mask), word n⟩,
    ⟨.casHead (word n) (word n + 1), true⟩,
    ⟨.storeSlot (word n &&& tinyRing.mask) (word n + 1), ()⟩]

/-- The trail of a pop that finds its slot full. -/
def popOps (n : Nat) : List ((o : Op SizeT) × o.Res) :=
  [⟨.loadTail, word n⟩, ⟨.loadSlot (word n &&& tinyRing.mask), word n + 1⟩,
    ⟨.casTail (word n) (word n + 1), true⟩,
    ⟨.storeSlot (word n &&& tinyRing.mask) (word n + 2), ()⟩]

theorem alone_push {n : Nat} {m : Mem SizeT Bool} (hhead : m.head = word n)
    (hslot : m.slot (n % 2) = word n) :
    Alone (sys tinyRing Bool) false ((sys tinyRing Bool).body (.push [])) m (pushOps n)
      ⟨toSsize (word n), []⟩ (filled tinyRing m []) := by
  have hdif : dif (word n) (word n) = 0 := dif_eq_zero.2 rfl
  have hload :
      (sys tinyRing Bool).exec false (.loadSlot (word n &&& tinyRing.mask)) m (word n) m := by
    show (m.slot _, m) = (word n, m)
    rw [tiny_index, hslot]
  refine .op (congrArg (·, m) hhead) (.op hload ?_)
  show Alone _ _ (Prog.bind (ite (dif (word n) (word n) > 0) _ _) _) _ _ _ _
  rw [if_neg (by rw [hdif]; decide)]
  show Alone _ _ (Prog.bind (ite (dif (word n) (word n) < 0) _ _) _) _ _ _ _
  rw [if_neg (by rw [hdif]; decide)]
  refine .op (if_pos hhead) (.op ?_ .ret)
  rw [filled, hhead]
  rfl

theorem alone_pop {n : Nat} {m : Mem SizeT Bool} (htail : m.tail = word n)
    (hslot : m.slot (n % 2) = word n + 1) :
    Alone (sys tinyRing Bool) false ((sys tinyRing Bool).body (.pop 0)) m (popOps n)
      ⟨toSsize (word n), []⟩ (drained tinyRing m) := by
  have hdif : dif (word n + 1) (word n + 1) = 0 := dif_eq_zero.2 rfl
  have hload : (sys tinyRing Bool).exec false (.loadSlot (word n &&& tinyRing.mask)) m
      (word n + 1) m := by
    show (m.slot _, m) = (word n + 1, m)
    rw [tiny_index, hslot]
  refine .op (congrArg (·, m) htail) (.op hload ?_)
  show Alone _ _ (Prog.bind (ite (dif (word n + 1) (word n + 1) > 0) _ _) _) _ _ _ _
  rw [if_neg (by rw [hdif]; decide)]
  show Alone _ _ (Prog.bind (ite (dif (word n + 1) (word n + 1) < 0) _ _) _) _ _ _ _
  rw [if_neg (by rw [hdif]; decide)]
  refine .op (if_pos htail) (.op ?_ .ret)
  rw [drained, htail]
  rfl

theorem Turned.next_turn {n : Nat} {m : Mem SizeT Bool} (h : Turned n m) :
    Turned (n + 1) (drained tinyRing (filled tinyRing m [])) := by
  have hne : (n + 1) % 2 ≠ n % 2 := by omega
  have heq : (n + 1 + 1) % 2 = n % 2 := by omega
  have hhead : toNat (m.head &&& tinyRing.mask) = n % 2 := by rw [h.head, tiny_index]
  have htail : toNat (m.tail &&& tinyRing.mask) = n % 2 := by rw [h.tail, tiny_index]
  refine ⟨?_, ?_, ?_, ?_⟩
  · show m.head + 1 = word (n + 1)
    rw [h.head, word_succ]
  · show m.tail + 1 = word (n + 1)
    rw [h.tail, word_succ]
  · show Function.update (Function.update m.slot _ _) (toNat (m.tail &&& tinyRing.mask)) _ _ = _
    rw [htail, hhead, Function.update_of_ne hne, Function.update_of_ne hne, h.next]
  · show Function.update (Function.update m.slot _ _) (toNat (m.tail &&& tinyRing.mask))
      (m.tail + 2) _ = _
    rw [heq, htail, Function.update_self, h.tail, ← word_succ, ← word_succ, BitVec.add_assoc]
    rfl

/-- What is known of the events of `j` rounds of a push and a pop by thread `false`. -/
def Rounds (j : Nat) (tr : List (Ev SizeT Bool tinyRing.objSize)) : Prop :=
  (pushClaims tr).length = j ∧ ∀ e ∈ tr, e.thread = false

theorem turn {n : Nat} {m : Mem SizeT Bool} {k : Nat}
    {th : Bool → Thread (Op SizeT) Op.Res Empty (Call tinyRing.objSize) Ret} (h : Turned n m)
    (hidle : th false = .idle) :
    ∃ tr m', Run (sys tinyRing Bool) ⟨m, th, k⟩ tr ⟨m', th, k + 2⟩ ∧ Turned (n + 1) m' ∧
      Rounds 1 tr := by
  have hslot : (filled tinyRing m []).slot (n % 2) = word n + 1 := by
    rw [filled, h.head, tiny_index]
    exact Function.update_self ..
  have h₁ : Run (sys tinyRing Bool) ⟨m, th, k⟩ _ _ :=
    Run.alone hidle trivial (alone_push h.head h.slot)
  have h₂ : Run (sys tinyRing Bool) ⟨filled tinyRing m [], th, k + 1⟩ _ _ :=
    Run.alone hidle trivial (alone_pop h.tail hslot)
  refine ⟨_, _, h₁.trans h₂, h.next_turn, rfl, fun e he => ?_⟩
  rcases List.mem_append.1 he with he | he
  · exact thread_of_alone he
  · exact thread_of_alone he

theorem turns {th : Bool → Thread (Op SizeT) Op.Res Empty (Call tinyRing.objSize) Ret}
    (hidle : th false = .idle) (j : Nat) {n k : Nat} {m : Mem SizeT Bool} (h : Turned n m) :
    ∃ tr m', Run (sys tinyRing Bool) ⟨m, th, k⟩ tr ⟨m', th, k + 2 * j⟩ ∧ Turned (n + j) m' ∧
      Rounds j tr := by
  refine Run.rounds ⟨rfl, nofun⟩ (fun i tr tr' hi hj => ⟨?_, fun e he => ?_⟩)
    (fun n m k h => turn h hidle) j h
  · rw [pushClaims, claims_append, List.length_append, hi.1, hj.1]
  · exact (List.mem_append.1 he).elim (hi.2 e) (hj.2 e)

/-- A push that has loaded `0` from the head is told full when its slot is half the range of
`size_t` ahead. -/
theorem asleep {m : Mem SizeT Bool} (hhead : m.head = 0) :
    ∃ p,
      Along (sys tinyRing Bool) true ((sys tinyRing Bool).body (.push [])) m [⟨.loadHead, 0⟩] p m ∧
      ∀ m' : Mem SizeT Bool, m'.slot 0 = word (2 ^ 63) →
        Alone (sys tinyRing Bool) true p m' [⟨.loadSlot (0 &&& tinyRing.mask), word (2 ^ 63)⟩]
          ⟨ringbufFull, []⟩ m' := by
  refine ⟨_, .op (congrArg (·, m) hhead) .refl, fun m' hslot => ?_⟩
  have hload : (sys tinyRing Bool).exec true (.loadSlot (0 &&& tinyRing.mask)) m'
      (word (2 ^ 63)) m' := congrArg (·, m') hslot
  refine .op hload ?_
  show Alone (sys tinyRing Bool) true (.ret (⟨ringbufFull, []⟩ : Ret)) m' [] _ m'
  exact .ret

/-- Thread `true` loads the head of a new ring and sleeps, while `false` pushes and pops
`2 ^ 63 - 1` elements. Then the slot of position `0` is half the range of `size_t` ahead. -/
theorem full_after_sleep : ∃ tr cf,
    Run (sys tinyRing Bool) (.start (getBuf tinyRing .mpmcSlot .zero))
      (tr ++ [.ret true 0 (.push []) ⟨ringbufFull, []⟩]) cf ∧
    (pushClaims tr).length < 2 ^ 63 ∧ ¬ SawFull tinyRing tr true 0 := by
  let m₀ : Mem SizeT Bool := getBuf tinyRing .mpmcSlot .zero
  obtain ⟨p, hload, hfull⟩ := asleep (rfl : m₀.head = 0)
  let th : Bool → Thread (Op SizeT) Op.Res Empty (Call tinyRing.objSize) Ret :=
    Function.update (fun _ => .idle) true (.run 0 (.push []) p)
  have hidle : th false = .idle := Function.update_of_ne (by decide) ..
  let c : Config (Op SizeT) Op.Res Empty Bool (Call tinyRing.objSize) Ret (Mem SizeT Bool) :=
    ⟨m₀, Function.update (fun _ => .idle) true
      (.run 0 (.push []) ((sys tinyRing Bool).body (.push []))), 1⟩
  have h₀ : Run (sys tinyRing Bool) (.start m₀) [.call true 0 (.push [])] c :=
    Run.single (.call rfl trivial)
  have h₁ :
      Run (sys tinyRing Bool) c (opEvents true 0 (.push []) [⟨.loadHead, 0⟩]) ⟨m₀, th, 1⟩ := by
    have hthread : c.thread true = .run 0 (.push []) ((sys tinyRing Bool).body (.push [])) := rfl
    have h := Run.along hload hthread rfl
    rwa [Function.update_idem] at h
  have hturned : Turned 0 m₀ := ⟨rfl, rfl, rfl, rfl⟩
  obtain ⟨tr, m', h₂, h', hlen, hth⟩ := turns (k := 1) hidle (2 ^ 63 - 1) hturned
  have hslot : m'.slot 0 = word (2 ^ 63) := h'.next
  have h₃ := Run.finish (hfull m' hslot) (c := ⟨m', th, 1 + 2 * (2 ^ 63 - 1)⟩)
    (rfl : th true = _) rfl
  have h := ((h₀.trans h₁).trans h₂).trans h₃
  refine ⟨_ ++ opEvents true 0 (.push []) [⟨.loadSlot (0 &&& tinyRing.mask), word (2 ^ 63)⟩], _,
    by rw [List.append_assoc]; exact h, ?_, ?_⟩
  · rw [pushClaims, claims_append, claims_append, List.length_append, List.length_append, hlen]
    decide
  · rintro ⟨tr₁, tr₂, tr₃, c, x, seq, htr, hcap, -, -⟩
    have hmem : .op true 0 c .loadHead x ∈ tr₁ ++ .op true 0 c .loadHead x :: tr₂ ++
        .op true 0 c (.loadSlot (x &&& tinyRing.mask)) seq :: tr₃ := by simp
    rw [← htr] at hmem
    have hzero : x = 0 := by
      rcases List.mem_append.1 hmem with hmem | hmem
      · rcases List.mem_append.1 hmem with hmem | hmem
        · rcases List.mem_cons.1 hmem with hmem | hmem
          · cases hmem
          · cases List.mem_singleton.1 hmem
            rfl
        · cases hth _ hmem
      · cases List.mem_singleton.1 hmem
    rw [hzero] at hcap
    cases hcap

/-- A push, and a pop with a callback that answers `RINGBUF_EMPTY`. -/
def pushDenied : List (Bool × Call tinyRing.objSize) := [(false, .push []), (false, .popWCb denies)]

theorem empty_after_pop : ∃ tr cf,
    Run (sys tinyRing Bool) (.start (getBuf tinyRing .mpmcSlot .zero))
      (tr ++ [.ret false 1 (.popWCb denies) ⟨ringbufEmpty, []⟩]) cf ∧
    (pushClaims tr).length < 2 ^ 63 ∧ ¬ Untouched tr false 1 := by
  let tr := seqTrace exec (body tinyRing) pushDenied 0 (getBuf tinyRing .mpmcSlot .zero)
  have hrun : Run (sys tinyRing Bool) (.start (getBuf tinyRing .mpmcSlot .zero)) tr _ :=
    Run.seq pushDenied (fun _ _ => trivial) 0 _
  have htr : tr = tr.dropLast ++ [.ret false 1 (.popWCb denies) ⟨ringbufEmpty, []⟩] := rfl
  refine ⟨tr.dropLast, _, htr ▸ hrun, by decide, fun huntouched => ?_⟩
  have hcas : .op false 1 (.popWCb denies) (.casTail 0 1) true ∈ tr.dropLast :=
    List.mem_of_getElem? (i := 9) rfl
  cases huntouched _ _ _ hcas

/-- A pop with a callback may return any code after it has taken an element, and a push may be told
full on a ring that was never full. -/
theorem mpmc_codes_not :
    (∃ tr cf, Run (sys tinyRing Bool) (.start (getBuf tinyRing .mpmcSlot .zero))
        (tr ++ [.ret false 1 (.popWCb denies) ⟨ringbufEmpty, []⟩]) cf ∧
      (pushClaims tr).length < 2 ^ 63 ∧ ¬ Untouched tr false 1) ∧
    ∃ tr cf, Run (sys tinyRing Bool) (.start (getBuf tinyRing .mpmcSlot .zero))
        (tr ++ [.ret true 0 (.push []) ⟨ringbufFull, []⟩]) cf ∧
      (pushClaims tr).length < 2 ^ 63 ∧ ¬ SawFull tinyRing tr true 0 :=
  ⟨empty_after_pop, full_after_sleep⟩

end Mpmc

end RingBuf
