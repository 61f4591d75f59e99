import RingBuf.Harness.Delivery

/-!
# The test programs find no fault

In every run of the two test programs on a ring that serves them (`Serves`), whatever the number of
threads and the order of their steps, no check fails and no entry of `arr` outside the array is
written; the objects that come out are intact and have different numbers, and when all consumers are
done each number has come out once (`sound`). The counters must not wrap: the numbers and the
threads are together at most `2 ^ 64`.
-/

namespace RingBuf

open Conc Bytes Word LawfulWord

namespace Harness

variable {Op : Type} {Res : Op → Type} {Lbl Tid Call Ret σ : Type} [DecidableEq Tid]
  {S : Sys Op Res Lbl Tid Call Ret σ} {s₀ : σ} {K : Kind Call Ret} {cs : Constants}
  {bound cap : Nat} {fits : Call → Act Elem → Prop}
  {returns : Call → Ret → Option (Act Elem) → Prop}
  {effects : List (Event Op Res Tid Call Ret) → List (Nat × Act Elem)}
  {allow : (Tid → Option Job) → Tid → Job → Prop}
  {tr : List (TestEv Tid Call Ret)} {c : Counter}
  {cf : Config (Use Own Call) (Use.Res Own.Res Call Ret) Loop Tid Job Unit
    (TestWorld Op Res Lbl Tid Call Ret σ)}

/-! ## The counters do not wrap -/

/-- The creation of a thread. -/
def createdBy : TestEv Tid Call Ret → Option Nat
  | .call _ id _ => some id
  | _ => none

/-- The threads created so far. -/
def created (tr : List (TestEv Tid Call Ret)) : List Nat := tr.filterMap createdBy

theorem last_inductive {A : List (TestEv Tid Call Ret) → TestWorld Op Res Lbl Tid Call Ret σ →
    Roles Tid Job (Role Ret) → Prop} (c : Counter) :
    InductiveUnder (proto K cs) (sys K cs S allow) (.start s₀ fun _ => 0) A
      fun tr _ R => Once (tooLarge cs c) (Role.last c) tr R := by
  refine once_inductive _ _ (fun j => ?_) Trans.last_keep Trans.last_take
  cases j <;> rfl

/-- What holds in every run, whatever the ring does. -/
theorem basic_inductive : Inductive (proto K cs) (sys K cs S allow) (.start s₀ fun _ => 0)
    fun tr w R => (Using S s₀ (Role.inside K) w R ∧ Known cs tr w.own R) ∧
      ∀ c, Once (tooLarge cs c) (Role.last c) tr R :=
  ((using_inductive awaits).and known_inductive).and (.all last_inductive)

omit [DecidableEq Tid] in
theorem created_append (tr tr' : List (TestEv Tid Call Ret)) :
    created (tr ++ tr') = created tr ++ created tr' := List.filterMap_append

omit [DecidableEq Tid] in
theorem mem_created {t : Tid} {id : Nat} {j : Job} (h : .call t id j ∈ tr) : id ∈ created tr :=
  List.mem_filterMap.2 ⟨_, h, rfl⟩

omit [DecidableEq Tid] in
theorem ids_le {ids : List Nat} (hnodup : ids.Nodup)
    (hids : ∀ id ∈ ids, ∃ t j, .call t id j ∈ tr) : ids.length ≤ (created tr).length := by
  refine (hnodup.subperm fun id hid => ?_).length_le
  obtain ⟨t, j, hcall⟩ := hids id hid
  exact mem_created hcall

omit [DecidableEq Tid] in
theorem Trans.last_none {l l' : Role Ret} {o : Use Own Call} {x : Use.Res Own.Res Call Ret o}
    (h : Trans K cs l o x l') : l.last c = none := by
  cases h <;> rfl

theorem tooLarge_called (h : Run (sys K cs S allow) (.start (.start s₀ fun _ => 0)) tr cf)
    {i : Nat} (hi : i ∈ (claims (tooLarge cs c) tr).map Claim.id) : ∃ t j, .call t i j ∈ tr := by
  obtain ⟨d, hd, rfl⟩ := List.mem_map.1 hi
  obtain ⟨o, r, hop, -⟩ := exists_op_of_mem_claims hd
  exact ⟨d.thread, d.call, h.op_called hop⟩

theorem tooLarge_lt (h : Run (sys K cs S allow) (.start (.start s₀ fun _ => 0)) tr cf) {t : Tid}
    {id : Nat} {j : Job} {o : Use Own Call}
    {k : Use.Res Own.Res Call Ret o → TestProg Call Ret Unit}
    (ht : cf.thread t = .run id j (.op o k)) (x : Use.Res Own.Res Call Ret o) :
    (claims (tooLarge cs c) tr).length < (created tr).length ∧
      cf.shared.own c = word (fetches c tr).length := by
  obtain ⟨R, hF, -, ⟨-, hknown⟩, honce⟩ := basic_inductive.run (follows S allow) h
  obtain ⟨l, hR, hw⟩ := (ht ▸ hF t : Follow (proto K cs) (.run id j (.op o k)) (R t)).run
  obtain ⟨l', hm, -⟩ := hw x
  refine ⟨?_, hknown.count c⟩
  have hnodup : (id :: (claims (tooLarge cs c) tr).map Claim.id).Nodup := by
    refine List.nodup_cons.2 ⟨fun hmem => ?_, (honce c).nodup⟩
    obtain ⟨d, hd, hid⟩ := List.mem_map.1 hmem
    exact (honce c).other t _ hR hm.last_none d hd hid
  refine Nat.lt_of_lt_of_le ?_ (ids_le hnodup fun i hi => ?_)
  · rw [List.length_cons, List.length_map]
    exact Nat.lt_succ_self _
  rcases List.mem_cons.1 hi with rfl | hi
  · exact ⟨t, j, h.orderly.called ht⟩
  · exact tooLarge_called h hi

/-- A counter gets no further than `N` and one more for each thread. -/
theorem fetches_le (h : Run (sys K cs S allow) (.start (.start s₀ fun _ => 0)) tr cf)
    (hcr : toNat cs.n + (created tr).length ≤ 2 ^ 64) (c : Counter) :
    (fetches c tr).length ≤ toNat cs.n + (claims (tooLarge cs c) tr).length := by
  induction h with
  | refl => exact Nat.zero_le _
  | @tail tr cf e cf' h hs ih =>
    have hcr₀ : toNat cs.n + (created tr).length ≤ 2 ^ 64 := by
      rw [created_append, List.length_append] at hcr
      omega
    have ih : (claims (fetched c) tr).length ≤ _ := ih hcr₀
    cases hs with
    | call _ _ =>
      rw [Option.toList_some, fetches, claims_snoc_call, claims_snoc_call]
      exact ih
    | ret _ =>
      rw [Option.toList_some, fetches, claims_snoc_ret, claims_snoc_ret]
      exact ih
    | jump _ =>
      rw [Option.toList_none, List.append_nil]
      exact ih
    | env _ =>
      rw [Option.toList_none, List.append_nil]
      exact ih
    | @op t id j o k x w' ht he =>
      cases hf : fetched c o x with
      | none =>
        rw [Option.toList_some, fetches, claims_snoc_none hf,
          claims_snoc_none (by rw [tooLarge, hf]; rfl)]
        exact ih
      | some n =>
        rw [Option.toList_some, fetches, claims_snoc_some hf, List.length_append,
          List.length_singleton]
        by_cases hn : n < cs.n
        · -- The number is that of the fetches before it, since these are fewer than `2 ^ 64`.
          obtain ⟨hlt, hown⟩ := tooLarge_lt (c := c) h ht x
          have hnum : n = word (fetches c tr).length := by
            rw [← hown]
            cases o with
            | own o =>
              obtain ⟨s, hs, -⟩ := he
              cases o with
              | fetchAdd c' =>
                simp only [fetched] at hf
                split at hf
                case isTrue hc =>
                  obtain rfl := Option.some.inj hf
                  exact hc ▸ hs.1
                case isFalse => cases hf
              | stamp c' i => cases hf
              | abort => cases hf
            | make b => cases hf
            | await => cases hf
          have hlt' : toNat n < toNat cs.n := hn
          have hfits : (claims (fetched c) tr).length < 2 ^ 64 := by omega
          rw [hnum, toNat_word, Nat.mod_eq_of_lt hfits] at hlt'
          have hlt'' : (claims (fetched c) tr).length < toNat cs.n := hlt'
          have hmono : (claims (tooLarge cs c) tr).length ≤
              (claims (tooLarge cs c) (tr ++ [.op t id j o x])).length := length_claims_le _
          omega
        · have hlarge : tooLarge cs c o x = some n := by
            simp [tooLarge, hf, Option.filter_some, hn]
          rw [claims_snoc_some hlarge, List.length_append, List.length_singleton]
          omega

/-- **No counter wraps**, if the numbers and the threads are few enough. -/
theorem fetches_le_pow (h : Run (sys K cs S allow) (.start (.start s₀ fun _ => 0)) tr cf)
    (hcr : toNat cs.n + (created tr).length ≤ 2 ^ 64) (c : Counter) :
    (fetches c tr).length ≤ 2 ^ 64 := by
  obtain ⟨R, -, -, -, honce⟩ := basic_inductive.run (follows S allow) h
  have hle := fetches_le h hcr c
  have hids := ids_le (honce c).nodup fun i hi => tooLarge_called h hi
  rw [List.length_map] at hids
  omega

/-! ## Every run -/

/-- The test programs find no fault. -/
structure Sound (K : Kind Call Ret) (cs : Constants) (tr : List (TestEv Tid Call Ret))
    (cf : Config (Use Own Call) (Use.Res Own.Res Call Ret) Loop Tid Job Unit
      (TestWorld Op Res Lbl Tid Call Ret σ)) : Prop where
  /-- No `assert` fails. -/
  noAbort : ∀ t id j, .op t id j (.own .abort) () ∉ tr
  /-- The times go into the `N` entries of `arr`. -/
  inBounds : ∀ {t id j c i}, .op t id j (.own (.stamp c i)) () ∈ tr → i < cs.n
  /-- What comes out passes the check and has a number below `N`. -/
  intact : ∀ d ∈ delivered K tr, check (ofBytes (K.buf d.pos)) text = true ∧
    seq (ofBytes (K.buf d.pos)) < cs.n
  /-- No number comes out twice. -/
  once : ((delivered K tr).map fun d => seq (ofBytes (K.buf d.pos))).Nodup
  /-- When all consumers are done, all numbers have come out. -/
  all : (∃ t id, .ret t id .consumer () ∈ tr) → (∀ t, (cf.thread t).call? ≠ some .consumer) →
    ((delivered K tr).map fun d => toNat (seq (ofBytes (K.buf d.pos)))).Perm
      (List.range (toNat cs.n))

/-- Everything that is known of a run, as long as `pushed` has not wrapped. -/
theorem full_inductive (hK : Serves S s₀ K bound cap fits returns effects)
    (hn : toNat cs.n + 1 < bound) :
    Inductive (proto K cs) (sys K cs S allow) (.start s₀ fun _ => 0) fun tr w R =>
      ((Using S s₀ (Role.inside K) w R ∧ Known cs tr w.own R) ∧
        ∀ c, Once (tooLarge cs c) (Role.last c) tr R) ∧
      ((fetches .pushed tr).length ≤ 2 ^ 64 →
        Pushes K cs cap fits returns effects tr w R ∧ Delivers K cs tr w R) := by
  have hB : ∀ (tr : List (TestEv Tid Call Ret)) e,
      (fetches .pushed (tr ++ [e])).length ≤ 2 ^ 64 → (fetches .pushed tr).length ≤ 2 ^ 64 :=
    fun tr e h => Nat.le_trans (length_claims_le [e]) h
  refine basic_inductive.and (.guard hB (.layer ?_ ?_))
  · exact (pushes_inductive hK hn).under fun _ _ _ h => ⟨h.1, h.2.1⟩
  · exact (delivers_inductive hK).under fun _ _ _ h => ⟨h.1.2.1, h.2⟩

theorem gotAll_of_ret (h : Run (sys K cs S allow) (.start (.start s₀ fun _ => 0)) tr cf) {t : Tid}
    {id : Nat} (hr : .ret t id .consumer () ∈ tr) : ∃ d ∈ fetches .got tr, ¬ d.pos < cs.n := by
  obtain ⟨tr₁, tr₂, rfl⟩ := List.append_of_mem hr
  obtain ⟨n, w, R, l, -, ⟨⟨-, hknown⟩, honce⟩, ht, hf⟩ :=
    basic_inductive.before_ret (follows S allow) h
  have hrole : RoleOf cs .consumer l := hknown.role t _ ht
  cases l with
  | ended c k =>
    cases c with
    | pushed => exact hrole.elim
    | got =>
      have hmem := (honce .got).own t _ k ht rfl
      obtain ⟨o, x, hop, htake⟩ := exists_op_of_mem_claims hmem
      obtain ⟨hfetch, hlarge⟩ := Option.filter_eq_some_iff.1 htake
      refine ⟨⟨t, id, .consumer, k⟩, mem_claims_append ?_ _, by simpa using hlarge⟩
      have hclaim : (⟨t, id, .consumer, k⟩ : Claim Tid Job SizeT) ∈ claims (fetched .got) tr₁ :=
        List.mem_filterMap.2 ⟨_, hop, by rw [Event.claim?, hfetch]; rfl⟩
      exact hclaim
  | _ => exact hf.elim

omit [DecidableEq Tid] in
/-- When the counter has passed `N`, every number below has been wanted. -/
theorem length_wanted {own : Counter → SizeT} {R : Roles Tid Job (Role Ret)}
    (hknown : Known cs tr own R) (hlt : (fetches .got tr).length ≤ 2 ^ 64)
    (hlarge : ∃ d ∈ fetches .got tr, ¬ d.pos < cs.n) : (wanted cs tr).length = toNat cs.n := by
  have hpos : (fetches .got tr).map Claim.pos = (List.range (fetches .got tr).length).map word := by
    apply List.ext_getElem?
    intro i
    rw [List.getElem?_map, List.getElem?_map]
    cases hi : (fetches .got tr)[i]? with
    | none =>
      have hle := List.getElem?_eq_none_iff.1 hi
      rw [List.getElem?_eq_none (by simpa using hle)]
      rfl
    | some d =>
      have hil := (List.getElem?_eq_some_iff.1 hi).1
      rw [List.getElem?_range hil]
      exact congrArg some (hknown.order _ i d hi)
  -- The word of a position is below `N` if the position is.
  have hword : ∀ i ∈ List.range (fetches .got tr).length,
      decide (word i < cs.n) = decide (i < toNat cs.n) := by
    intro i hi
    have hi' := List.mem_range.1 hi
    have hnum : toNat (word i) = i := by
      rw [toNat_word, Nat.mod_eq_of_lt (by omega)]
    have hiff : word i < cs.n ↔ toNat (word i) < toNat cs.n := Iff.rfl
    rw [decide_eq_decide, hiff, hnum]
  obtain ⟨d, hd, hge⟩ := hlarge
  have hn : toNat cs.n ≤ (fetches .got tr).length := by
    obtain ⟨i, hi⟩ := List.mem_iff_getElem?.1 hd
    have hil := (List.getElem?_eq_some_iff.1 hi).1
    have hdi : d.pos = word i := hknown.order _ i d hi
    have hdec := hword i (List.mem_range.2 hil)
    rw [← hdi, decide_eq_decide] at hdec
    have := mt hdec.2 hge
    omega
  have hcount : (wanted cs tr).length = (List.range (fetches .got tr).length).countP
      fun i => decide (i < toNat cs.n) := by
    calc (wanted cs tr).length
        = (fetches .got tr).countP fun d => decide (d.pos < cs.n) :=
          (List.countP_eq_length_filter ..).symm
      _ = ((fetches .got tr).map Claim.pos).countP fun k => decide (k < cs.n) := by
          rw [List.countP_map]
          rfl
      _ = (List.range (fetches .got tr).length).countP fun i => decide (word i < cs.n) := by
          rw [hpos, List.countP_map]
          rfl
      _ = _ := List.countP_congr fun i hi => by rw [hword i hi]
  rw [hcount]
  obtain ⟨m, hm⟩ := Nat.exists_eq_add_of_le hn
  rw [hm, List.range_add, List.countP_append, List.countP_eq_length.2, List.countP_eq_zero.2]
  · simp
  · intro i hi
    obtain ⟨k, -, rfl⟩ := List.mem_map.1 hi
    simp
  · intro i hi
    simpa using hi

theorem Delivers.once {w : TestWorld Op Res Lbl Tid Call Ret σ} {R : Roles Tid Job (Role Ret)}
    (h : Delivers K cs tr w R)
    (hinj : ∀ {t u i i' v v'}, .ret t i (K.pop sizeofObj) v ∈ w.past → 0 ≤ K.rc v →
      .ret u i' (K.pop sizeofObj) v' ∈ w.past → 0 ≤ K.rc v' →
      seq (ofBytes (K.buf v)) = seq (ofBytes (K.buf v')) → i = i') :
    ((delivered K tr).map fun d => seq (ofBytes (K.buf d.pos))).Nodup := by
  obtain ⟨ids, hnodup, hids⟩ := h.pops
  have hlen := hids.length_eq
  rw [List.Nodup, List.pairwise_map, List.pairwise_iff_getElem]
  intro i j hi hj hij hseq
  have hri := hids.get hi (by omega)
  have hrj := hids.get hj (by omega)
  have heq := hinj hri.1 hri.2 hrj.1 hrj.2 hseq
  have hne := List.pairwise_iff_getElem.1 hnodup i j (by omega) (by omega) hij
  exact hne heq

/-- **The test programs find no fault** in a ring that serves them. -/
theorem sound (hK : Serves S s₀ K bound cap fits returns effects) (hn : toNat cs.n + 1 < bound)
    (h : Run (sys K cs S allow) (.start (.start s₀ fun _ => 0)) tr cf)
    (hcr : toNat cs.n + (created tr).length ≤ 2 ^ 64) : Sound K cs tr cf := by
  have hwrap := fetches_le_pow h hcr
  obtain ⟨R, hF, -, ⟨⟨hu, hknown⟩, -⟩, hrest⟩ := (full_inductive hK hn).run (follows S allow) h
  obtain ⟨hpushes, hdelivers⟩ := hrest (hwrap .pushed)
  have hintact : ∀ d ∈ delivered K tr, ∃ k, k < cs.n ∧ Intact k (K.buf d.pos) := by
    intro d hd
    obtain ⟨ids, -, hids⟩ := hdelivers.pops
    obtain ⟨i, hi, rfl⟩ := List.getElem_of_mem hd
    obtain ⟨hret, hrc⟩ := hids.get hi (by rw [← hids.length_eq]; exact hi)
    obtain ⟨-, -, -, k, -, -, -, hk, hbuf⟩ := hpushes.delivery hK hu.run hret hrc
    exact ⟨k, hk, hbuf⟩
  have honce := hdelivers.once (hpushes.same_number hK hu.run)
  -- What is known just before an operation.
  have before : ∀ {t id j o x}, .op t id j o x ∈ tr → ∃ l l', Trans K cs l o x l' ∧
      RoleOf cs j l ∧ ∀ v, l = .taken (some v) → ∃ k, k < cs.n ∧ Intact k (K.buf v) := by
    intro t id j o x hop
    obtain ⟨tr₁, tr₂, htr⟩ := List.append_of_mem hop
    rw [htr] at h
    obtain ⟨n, w, w', R', l, l', -, ⟨⟨⟨-, hknown'⟩, -⟩, hrest'⟩, ht, hm, -⟩ :=
      (full_inductive hK hn).before_op (follows S allow) h
    have hlt : (fetches .pushed tr₁).length ≤ 2 ^ 64 := by
      refine Nat.le_trans (length_claims_le (.op t id j o x :: tr₂)) ?_
      rw [← htr]
      exact hwrap .pushed
    exact ⟨l, l', hm, hknown'.role t _ ht, fun v hl => (hrest' hlt).2.got ht hl⟩
  refine ⟨fun t id j hop => ?_, fun {t id j c i} hop => ?_, fun d hd => ?_, honce, ?_⟩
  · obtain ⟨l, l', hm, -, hgot⟩ := before hop
    cases hm with
    | abort hcheck =>
      obtain ⟨k, -, hbuf⟩ := hgot _ rfl
      rw [hbuf.check] at hcheck
      cases hcheck
  · obtain ⟨l, l', hm, hrole, hgot⟩ := before hop
    cases hm with
    | stampStart =>
      cases j with
      | producer o => exact hrole.1
      | consumer => exact hrole.elim
    | stampEnd =>
      obtain ⟨k, hk, hbuf⟩ := hgot _ rfl
      rw [hbuf.seq]
      exact hk
  · obtain ⟨k, hk, hbuf⟩ := hintact d hd
    exact ⟨hbuf.check, by rw [hbuf.seq]; exact hk⟩
  · intro ⟨t, id, hret⟩ hdone
    have hwaits : ∀ t, (R t).elim 0 (fun x => x.role.waits) = 0 := by
      intro t
      cases hR : R t with
      | none => rfl
      | some x =>
        have hrole := hknown.role t x hR
        have hcall := (hF t).call?
        rw [hR] at hcall
        cases hj : x.call with
        | producer o =>
          rw [hj] at hrole
          show x.role.waits = 0
          cases hl : x.role with
          | claimed => exact (hl ▸ hrole : RoleOf cs (.producer o) (.claimed : Role Ret)).elim
          | popping => exact (hl ▸ hrole : RoleOf cs (.producer o) (.popping : Role Ret)).elim
          | _ => rfl
        | consumer =>
          refine absurd (hcall.trans ?_) (hdone t)
          show some x.call = _
          rw [hj]
    -- Each thread has got as many objects as it wanted.
    have hlen : (delivered K tr).length = toNat cs.n := by
      rw [← length_wanted hknown (hwrap .got) (gotAll_of_ret h hret)]
      have hperm : ((wanted cs tr).map Claim.thread).Perm ((delivered K tr).map Claim.thread) := by
        refine List.perm_iff_count.2 fun t => ?_
        have hcount := hdelivers.count t
        rw [hwaits t, Nat.add_zero] at hcount
        rw [List.count_eq_countP, List.countP_map, List.count_eq_countP, List.countP_map]
        refine Eq.trans ?_ (hcount.trans ?_)
        · exact List.countP_congr fun d _ => by simp
        · exact List.countP_congr fun d _ => by simp
      simpa using hperm.length_eq.symm
    have hnodup : ((delivered K tr).map fun d => toNat (seq (ofBytes (K.buf d.pos)))).Nodup := by
      have hmap : ((delivered K tr).map fun d => toNat (seq (ofBytes (K.buf d.pos)))) =
          ((delivered K tr).map fun d => seq (ofBytes (K.buf d.pos))).map toNat :=
        List.map_map.symm
      rw [hmap]
      exact honce.map fun a b hab => toNat_inj hab
    refine (hnodup.subperm fun m hm => ?_).perm_of_length_le (by simp [hlen])
    obtain ⟨d, hd, rfl⟩ := List.mem_map.1 hm
    obtain ⟨k, hk, hbuf⟩ := hintact d hd
    rw [hbuf.seq]
    exact List.mem_range.2 hk

end Harness

end RingBuf
