import RingBuf.Block.Fifo

/-!
# The blocking ring loses no wakeup

A push signals once, whoever may be about to take the mutex; a woken pop may find the ring empty
again and go back to sleep. What survives all this is a count: while a pop sleeps, the pops that
have been woken and have not been back in their loop test are at least as many as the waiting
elements, and while a push sleeps, the woken pushes are at least as many as the free slots
(`no_lost_wakeup`). In between the holder of the mutex owes one: a call that is past its wait has
still to take what it waited for, and one that has advanced its counter has still to signal.
-/

namespace RingBuf

open Conc Word LawfulWord

namespace Block

variable {Tid : Type}

/-! ## The count -/

/-- What a role owes to the sleepers on `c`, while it holds the mutex. -/
def Role.owes (c : Cond) : Role → Nat
  | .locked a | .sawHead a _ | .mustWait a | .ready a | .copying a _ _ _ | .kept a _ _
  | .advancing a _ _ _ => if a.needs = c then 1 else 0
  | .signalling a _ _ _ => if a.gives = c then 1 else 0
  | _ => 0

/-- What the holder of the mutex owes. -/
def slack (m : BMem Tid) (R : BRoles Tid) (c : Cond) : Nat :=
  match m.mtx.owner with
  | none => 0
  | some t => (R t).elim 0 fun a => a.role.owes c

/-- The threads that wait for `c`, asleep or woken. -/
def waiters (R : BRoles Tid) (c : Cond) : Set Tid := {t | waitsFor (R t) = some c}

/-- What there is to do for those who wait for `c`: the waiting elements, or the free slots. -/
def level (r : Ring SizeT) (q : List Elem) (n : Nat) : Cond → Nat
  | .readable => q.length - n
  | .writeable => n + r.cap - q.length

/-- Both conditions are covered. -/
def Alert (r : Ring SizeT) (tr : List (Ev Tid)) (m : BMem Tid) (R : BRoles Tid) : Prop :=
  ∀ c, m.mtx.Covered c (waiters R c) (level r (queue tr) (pops tr) c) (slack m R c)

variable {r : Ring SizeT} {tr tr' : List (Ev Tid)} {m m' m₀ : BMem Tid} {R R' : BRoles Tid}
  {t : Tid} {id : Nat} {a : Call} {c : Cond} {l l' : Role} {o : Op} {x : o.Res}

theorem Call.level_needs {q : List Elem} {n : Nat} (h : ¬ a.Ready r q n) :
    level r q n a.needs = 0 := by
  cases a with
  | push args =>
    have hfull : ¬ q.length < n + r.cap := h
    show n + r.cap - q.length = 0
    omega
  | pop size =>
    have hempty : ¬ n < q.length := h
    show q.length - n = 0
    omega

theorem level_push {q : List Elem} {n : Nat} {args bs : List Byte} {p h : SizeT} {e : Elem}
    (hroom : q.length < n + r.cap) :
    level r (q ++ [e]) n c + (Role.advancing (.push args) p h bs).owes c ≤
      level r q n c + (Role.signalling (.push args) p h bs).owes c := by
  cases c <;> simp [level, Role.owes, Call.needs, Call.gives] <;> omega

theorem level_pop {q : List Elem} {n size : Nat} {bs : List Byte} {p d : SizeT}
    (hsome : n < q.length) :
    level r q (n + 1) c + (Role.advancing (.pop size) p d bs).owes c ≤
      level r q n c + (Role.signalling (.pop size) p d bs).owes c := by
  cases c <;> simp [level, Role.owes, Call.needs, Call.gives] <;> omega

/-- What the holder owes is read off its role. -/
theorem slack_of_holds (h : Mutual m R) (ht : R t = some ⟨id, a, l⟩) (hl : l.holds = true) :
    slack m R c = l.owes c := by
  have howner : m.mtx.owner = some t := (h.owner t).2 (by rw [ht]; exact hl)
  rw [slack, howner]
  show (R t).elim 0 _ = _
  rw [ht]
  rfl

theorem slack_of_free (h : m.mtx.owner = none) : slack m R c = 0 := by
  rw [slack, h]

variable [DecidableEq Tid]

theorem waiters_update {y : Option (Active Call Role)}
    (h : waitsFor y = some c ↔ waitsFor (R t) = some c) :
    waiters (Function.update R t y) c = waiters R c := by
  ext u
  show waitsFor _ = _ ↔ waitsFor _ = _
  by_cases hu : u = t
  · subst hu
    rw [Function.update_self, h]
  · rw [Function.update_of_ne hu]

theorem Alert.idle (h : Alert r tr m R) (hmut : Mutual m R) {y : Option (Active Call Role)}
    (hpush : pushClaims tr' = pushClaims tr) (hpop : popClaims tr' = popClaims tr)
    (hheld : held (R t) = false) (hy : waitsFor y = waitsFor (R t)) :
    Alert r tr' m (Function.update R t y) := by
  intro c
  have hslack : slack m (Function.update R t y) c = slack m R c := by
    cases ho : m.mtx.owner with
    | none => rw [slack_of_free ho, slack_of_free ho]
    | some u =>
      have hu : u ≠ t := by
        rintro rfl
        rw [(hmut.owner u).1 ho] at hheld
        cases hheld
      simp only [slack, ho]
      rw [Function.update_of_ne hu]
  rw [waiters_update (by rw [hy]), hslack, queue_same hpush, pops, hpop]
  exact h c

/-- What a move of thread `t` does to the count. -/
theorem covered_op (hi : Inv r tr m R) (ht : R t = some ⟨id, a, l⟩) (hm : Trans r l o x l')
    (he : Exec t o m x m')
    (h : m.mtx.Covered c (waiters R c) (level r (queue tr) (pops tr) c) (l.owes c)) :
    m'.mtx.Covered c (waiters (Function.update R t (some ⟨id, a, l'⟩)) c)
      (level r (queue (tr ++ [.op t id a o x])) (pops (tr ++ [.op t id a o x])) c) (l'.owes c) := by
  have hof := hi.known.role t _ ht
  have hknow := hi.ring.know t _ ht
  have hwait : waitsFor (R t) = l.waits := by rw [ht]; rfl
  have hlevel (h₁ : putHead o x = none) (h₂ : putTail o x = none) :
      level r (queue (tr ++ [.op t id a o x])) (pops (tr ++ [.op t id a o x])) c =
        level r (queue tr) (pops tr) c := by
    rw [queue_same (claims_snoc_none h₁), pops,
      show popClaims (tr ++ [.op t id a o x]) = popClaims tr from claims_snoc_none h₂, pops]
  -- What all moves share that advance no counter.
  have quiet (h₁ : putHead o x = none) (h₂ : putTail o x = none)
      (hw : l'.waits = some c ↔ l.waits = some c)
      (h' : m'.mtx.Covered c (waiters R c) (level r (queue tr) (pops tr) c) (l'.owes c)) :
      m'.mtx.Covered c (waiters (Function.update R t (some ⟨id, a, l'⟩)) c)
        (level r (queue (tr ++ [.op t id a o x])) (pops (tr ++ [.op t id a o x])) c)
        (l'.owes c) := by
    rw [waiters_update (by rw [hwait]; exact hw), hlevel h₁ h₂]
    exact h'
  cases hm with
  | @lock a' _ =>
    obtain ⟨mtx, ⟨-, rfl⟩, rfl⟩ := he
    have hmore : m.mtx.Covered c (waiters R c) (level r (queue tr) (pops tr) c)
        ((Role.locked a').owes c) := h.weaken (Nat.add_le_add_left (Nat.zero_le _) _)
    exact quiet rfl rfl .rfl (hmore.congr rfl)
  | head | full _ | room _ | empty | some _ | pushSlot | popSlot | copyOut _ | keepHead
  | keepTail _ | loadHead | loadTail =>
    obtain ⟨-, rfl⟩ := he
    exact quiet rfl rfl .rfl h
  | copyIn _ =>
    obtain rfl := he
    exact quiet rfl rfl .rfl h
  | @sleep a' =>
    obtain rfl := he
    by_cases hc : a'.needs = c
    · -- There is nothing to do for those who sleep on the same condition.
      subst hc
      have hzero : level r (queue tr) (pops tr) a'.needs = 0 := Call.level_needs hknow
      rw [hlevel rfl rfl, hzero]
      exact .zero
    · have hnone : m.mtx.Covered c (waiters R c) (level r (queue tr) (pops tr) c) 0 := by
        simpa [Role.owes, hc] using h
      have hnot : t ∉ waiters R c := by
        intro (hmem : waitsFor (R t) = some c)
        rw [hwait] at hmem
        cases hmem
      exact quiet rfl rfl (by simp [Role.waits, hc]) (hnone.sleep_ne hc hnot)
  | @relock a' =>
    obtain ⟨mtx, hr, rfl⟩ := he
    by_cases hc : a'.needs = c
    · subst hc
      have howes : (Role.locked a').owes a'.needs = 0 + 1 := if_pos rfl
      rw [hlevel rfl rfl, howes]
      refine Monitor.Covered.relock h hr fun u hu => ?_
      by_cases hut : u = t
      · exact .inl hut
      · right
        show waitsFor (Function.update R t _ u) = _
        rw [Function.update_of_ne hut]
        exact hu
    · obtain ⟨-, -, rfl⟩ := hr
      have hnone : m.mtx.Covered c (waiters R c) (level r (queue tr) (pops tr) c)
          ((Role.locked a').owes c) := by
        simpa [Role.owes, hc] using h
      exact quiet rfl rfl (by simp [Role.waits, hc]) (hnone.congr rfl)
  | @publish args p h' =>
    obtain rfl := he
    have hpush : pushClaims (tr ++ [.op t id a (.setHead (h' + 1)) ()]) =
        pushClaims tr ++ [⟨t, id, a, h' + 1 - 1⟩] := claims_snoc_some rfl
    have hpop : popClaims (tr ++ [.op t id a (.setHead (h' + 1)) ()]) = popClaims tr :=
      claims_snoc_none rfl
    rw [waiters_update (by rw [hwait]; exact .rfl), queue_snoc hpush, pops, hpop]
    exact h.weaken (level_push hknow.2.2.1)
  | @giveBack size p d bs =>
    obtain rfl := he
    have hpush : pushClaims (tr ++ [.op t id a (.setTail (d + 1)) ()]) = pushClaims tr :=
      claims_snoc_none rfl
    have hpop : popClaims (tr ++ [.op t id a (.setTail (d + 1)) ()]) =
        popClaims tr ++ [⟨t, id, a, d + 1 - 1⟩] := claims_snoc_some rfl
    rw [waiters_update (by rw [hwait]; exact .rfl), queue_same hpush, pops, hpop,
      List.length_append]
    exact h.weaken (level_pop hknow.2.2.1)
  | @signal a' p q bs =>
    obtain ⟨mtx, hs, rfl⟩ := he
    by_cases hc : a'.gives = c
    · subst hc
      have howes : (Role.signalling a' p q bs).owes a'.gives = 0 + 1 := if_pos rfl
      rw [howes] at h
      exact quiet rfl rfl .rfl (h.signal hs fun u hu => hi.mutex.asleep u _ hu)
    · have hnone : m.mtx.Covered c (waiters R c) (level r (queue tr) (pops tr) c) 0 := by
        simpa [Role.owes, hc] using h
      exact quiet rfl rfl .rfl (hnone.wakes hs.wakes)
  | unlock =>
    obtain rfl := he
    exact quiet rfl rfl .rfl (h.congr rfl)

/-- A holder's operation, or one that takes the free mutex, starts from what its role owes. -/
theorem slack_before (hmut : Mutual m R) (ht : R t = some ⟨id, a, l⟩) (hm : Trans r l o x l')
    (he : Exec t o m x m') : slack m R c = l.owes c := by
  cases hm with
  | lock _ =>
    obtain ⟨mtx, ⟨hfree, -⟩, -⟩ := he
    exact slack_of_free hfree
  | relock =>
    obtain ⟨mtx, ⟨-, hfree, -⟩, -⟩ := he
    exact slack_of_free hfree
  | _ => exact slack_of_holds hmut ht rfl

theorem slack_after (hmut : Mutual m' R) (ht : R t = some ⟨id, a, l'⟩) (hm : Trans r l o x l')
    (he : Exec t o m x m') : slack m' R c = l'.owes c := by
  cases hm with
  | sleep =>
    obtain rfl := he
    exact slack_of_free rfl
  | unlock =>
    obtain rfl := he
    exact slack_of_free rfl
  | _ => exact slack_of_holds hmut ht rfl

theorem alert_inductive : InductiveUnder (proto r) (sys r Tid) m₀
    (fun tr m R => Inv r tr m R) fun tr m R => Alert r tr m R where
  init hi c := by
    intro ⟨u, hu⟩
    have := hi.mutex.asleep u c hu
    cases this
  call _ hi h ht _ _ := h.idle hi.mutex claims_snoc_call claims_snoc_call (by rw [ht]; rfl)
    (by rw [ht]; rfl)
  op _ hi h ht hm he hi' := by
    intro c
    rw [slack_after hi'.mutex (Function.update_self ..) hm he]
    have hbefore := h c
    rw [slack_before hi.mutex ht hm he] at hbefore
    exact covered_op hi ht hm he hbefore
  ret {n tr s R t id a l v} _ hi h ht hf _ := by
    refine h.idle hi.mutex claims_snoc_ret claims_snoc_ret ?_ ?_
    · rw [ht]
      cases l <;> first | rfl | exact hf.elim
    · rw [ht]
      cases l <;> first | rfl | exact hf.elim
  env {tr s R s'} _ h he _ := by
    obtain ⟨mtx, hw, rfl⟩ := he
    intro c
    have howner : mtx.owner = s.mtx.owner := by
      obtain ⟨u, -, rfl⟩ := hw
      rfl
    have hslack : slack { s with mtx := mtx } R c = slack s R c := by
      simp only [slack, howner]
    rw [hslack]
    exact (h c).wakes hw.wakes

/-! ## Every reachable state -/

/-- A configuration of the blocking system. -/
abbrev BConfig (Tid : Type) := Config Op Op.Res Call Tid Call Ret (BMem Tid)

/-- Some thread sleeps on `c`. -/
def Sleeps (cf : BConfig Tid) (c : Cond) : Prop := ∃ t, cf.shared.mtx.asleep t = some c

/-- The threads that have been woken from `c` and have not taken the mutex again. -/
def woken (cf : BConfig Tid) (c : Cond) : Set Tid :=
  {t | cf.shared.mtx.asleep t = none ∧ ∃ id a k, cf.thread t = .run id a (.op (.relock c) k)}

/-- No wakeup is lost. -/
structure NoLostWakeup (r : Ring SizeT) (cf : BConfig Tid) : Prop where
  /-- While a pop sleeps and the mutex is free, there is a woken pop for each waiting element. -/
  consumers : cf.shared.mtx.owner = none → Sleeps cf .readable →
    ((cf.shared.head - cf.shared.tail).toNat : ℕ∞) ≤ (woken cf .readable).encard
  /-- While a push sleeps and the mutex is free, there is a woken push for each free slot. -/
  producers : cf.shared.mtx.owner = none → Sleeps cf .writeable →
    ((r.cap - (cf.shared.head - cf.shared.tail).toNat : Nat) : ℕ∞) ≤ (woken cf .writeable).encard
  /-- No pop sleeps in front of an element with nobody woken to take it. -/
  element : cf.shared.mtx.owner = none → Sleeps cf .readable → cf.shared.head ≠ cf.shared.tail →
    (woken cf .readable).Nonempty
  /-- No push sleeps in front of a free slot with nobody woken to take it. -/
  slot : cf.shared.mtx.owner = none → Sleeps cf .writeable →
    (cf.shared.head - cf.shared.tail).toNat < r.cap → (woken cf .writeable).Nonempty
  /-- Pushes and pops do not all sleep. -/
  awake : Sleeps cf .readable → Sleeps cf .writeable →
    ∃ t, cf.thread t ≠ .idle ∧ cf.shared.mtx.asleep t = none

omit [DecidableEq Tid] in
theorem relock_of_waiting {th : Thread Op Op.Res Call Call Ret} {y : Option (Active Call Role)}
    (hF : Follow (proto r) th y) (hy : waitsFor y = some c) :
    ∃ id a k, th = .run id a (.op (.relock c) k) := by
  cases th with
  | idle =>
    rw [hF.idle] at hy
    cases hy
  | run id a p =>
    obtain ⟨l, rfl, hw⟩ := hF.run
    cases l with
    | waiting a' =>
      obtain rfl : a'.needs = c := Option.some.inj hy
      cases p with
      | ret v => exact hw.elim
      | jump j => cases (show Role.waiting a' = .locked j from hw)
      | op o k =>
        have hany : Nonempty o.Res := by cases o <;> exact ⟨default⟩
        obtain ⟨x⟩ := hany
        obtain ⟨l', hm, -⟩ := hw x
        cases hm
        exact ⟨id, a, k, rfl⟩
    | _ => cases hy

/-- **The blocking ring loses no wakeup**, in any reachable state. -/
theorem no_lost_wakeup {cf : BConfig Tid} (h : Run (sys r Tid) (.start (getBlockBuf m₀)) tr cf) :
    NoLostWakeup r cf := by
  obtain ⟨R, hF, -, hi, halert⟩ := Inductive.run (follows r Tid)
    ((inv_inductive m₀).and alert_inductive) h
  have hle := hi.ring.le
  have hroom := hi.ring.room
  have hcap := r.two_le_cap
  have hdiff : (cf.shared.head - cf.shared.tail).toNat = (queue tr).length - pops tr := by
    have hcap' := r.cap_le
    rw [hi.ring.head, hi.ring.tail]
    exact toNat_word_sub hle (by omega)
  -- The count, when nobody holds the mutex.
  have count : ∀ c, cf.shared.mtx.owner = none → Sleeps cf c →
      (level r (queue tr) (pops tr) c : ℕ∞) ≤ (woken cf c).encard := by
    intro c hfree hs
    have hcov := halert c hs
    rw [slack_of_free hfree, Nat.cast_zero, add_zero] at hcov
    refine hcov.trans (Set.encard_le_encard fun u hu => ⟨hu.2, ?_⟩)
    exact relock_of_waiting (hF u) hu.1
  have consumers : cf.shared.mtx.owner = none → Sleeps cf .readable →
      (((queue tr).length - pops tr : Nat) : ℕ∞) ≤ (woken cf .readable).encard := count .readable
  have producers : cf.shared.mtx.owner = none → Sleeps cf .writeable →
      ((pops tr + r.cap - (queue tr).length : Nat) : ℕ∞) ≤ (woken cf .writeable).encard :=
    count .writeable
  have hslots : r.cap - ((queue tr).length - pops tr) = pops tr + r.cap - (queue tr).length := by
    omega
  have nonempty : ∀ {n : Nat} {s : Set Tid}, 0 < n → (n : ℕ∞) ≤ s.encard → s.Nonempty := by
    intro n s hn hns
    rw [← Set.encard_pos]
    exact lt_of_lt_of_le (by exact_mod_cast hn) hns
  refine ⟨?_, ?_, fun hfree hs hne => ?_, fun hfree hs hlt => ?_, fun hr hw => ?_⟩
  · rw [hdiff]
    exact consumers
  · rw [hdiff, hslots]
    exact producers
  · rw [Ne, hi.ring.empty_iff, not_not] at hne
    exact nonempty (by omega) (consumers hfree hs)
  · rw [hdiff] at hlt
    exact nonempty (by omega) (producers hfree hs)
  · -- Somebody holds the mutex, or an element or a free slot has woken somebody.
    cases howner : cf.shared.mtx.owner with
    | some t =>
      have hheld := (hi.mutex.owner t).1 howner
      refine ⟨t, fun hidle => ?_, hi.mutex.awake ?_⟩
      · rw [(hidle ▸ hF t : Follow (proto r) .idle (R t)).idle] at hheld
        cases hheld
      · cases hRt : R t with
        | none => rfl
        | some b =>
          rw [hRt] at hheld
          cases hl : b.role with
          | waiting c =>
            rw [held, Option.elim, hl] at hheld
            cases hheld
          | _ => simp [waitsFor, hl, Role.waits]
    | none =>
      have hwoken : ∀ {c}, (woken cf c).Nonempty →
          ∃ t, cf.thread t ≠ .idle ∧ cf.shared.mtx.asleep t = none := by
        rintro c ⟨t, hawake, id, a, k, ht⟩
        exact ⟨t, by simp [ht], hawake⟩
      by_cases hlt : pops tr < (queue tr).length
      · exact hwoken (nonempty (by omega) (consumers howner hr))
      · exact hwoken (nonempty (by omega) (producers howner hw))

/-- Thread `false` sleeps in front of an empty ring. -/
theorem no_lost_wakeup_asleep :
    ∃ tr cf, Run (sys tinyRing Bool) (.start (getBlockBuf .zero)) tr cf ∧ Sleeps cf .readable ∧
      NoLostWakeup tinyRing cf := by
  have hpop : Along (sys tinyRing Bool) false (popBlockRingBuf tinyRing 1) (getBlockBuf .zero)
      [⟨.lock, ()⟩, ⟨.getHead, 0⟩, ⟨.getTail, 0⟩, ⟨.sleep .readable, ()⟩]
      (.op (.relock .readable) fun _ => .jump (.pop 1))
      { getBlockBuf .zero with mtx := Monitor.sleep false .readable ⟨some false, fun _ => none⟩ } :=
    .op (exec_lock rfl) (.jump (.op ⟨rfl, rfl⟩ (.op ⟨rfl, rfl⟩ (.op rfl .refl))))
  have h := (Run.single (Step.call (c := .start (getBlockBuf .zero)) (t := false) (a := .pop 1) rfl
    trivial)).trans (Run.along hpop (by rfl) rfl)
  exact ⟨_, _, h, ⟨false, rfl⟩, no_lost_wakeup h⟩

end Block

end RingBuf
