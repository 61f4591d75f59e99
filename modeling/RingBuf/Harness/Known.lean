import RingBuf.Harness.Code
import RingBuf.Conc.Queue
import RingBuf.Contents
import RingBuf.Window

/-!
# What the test threads know

The numbers that the threads take from a counter come in order (`Known.order`), and a producer holds
one of them from the time it takes it to the time its push succeeds (`Known.held`). What the test
programs rely on in a ring is that it is linearized with few elements, and that return codes tell
whether a call had an effect (`Serves`).
-/

namespace RingBuf

open Conc Bytes Word LawfulWord

namespace Harness

variable {Op : Type} {Res : Op → Type} {Lbl Tid Call Ret σ : Type}

/-- The events of the test threads. -/
abbrev TestEv (Tid Call Ret : Type) := Event (Use Own Call) (Use.Res Own.Res Call Ret) Tid Job Unit

/-- The state of the test programs on a ring. -/
abbrev TestWorld (Op : Type) (Res : Op → Type) (Lbl Tid Call Ret σ : Type) :=
  World Op Res Lbl Tid Call Ret σ (Counter → SizeT)

/-- The return codes of a kind of ring tell the effects, as long as numbers are below `bound`. -/
structure Kind.Tells (K : Kind Call Ret) (bound : Nat) (fits : Call → Act Elem → Prop)
    (returns : Call → Ret → Option (Act Elem) → Prop) : Prop where
  push_inj : ∀ {bs bs'}, K.push bs = K.push bs' → bs = bs'
  apart : ∀ {bs size}, K.push bs ≠ K.pop size
  push_fits : ∀ {bs a}, fits (K.push bs) a → ∃ k, a = .enq k (.ofList bs)
  pop_fits : ∀ {size a}, fits (K.pop size) a → ∃ k e, a = .deq k e
  pushed : ∀ {bs v k e}, k < bound → returns (K.push bs) v (some (.enq k e)) → 0 ≤ K.rc v
  refused : ∀ {bs v}, returns (K.push bs) v none → K.rc v < 0
  popped : ∀ {size v k e}, returns (K.pop size) v (some (.deq k e)) →
    (K.buf v).length = size ∧ Agree (K.buf v) e
  empty : ∀ {size v}, returns (K.pop size) v none → K.rc v < 0

/-- A ring that the test programs can rely on as long as it has had fewer than `bound` elements: its
history is linearized by `effects`. -/
structure Serves [DecidableEq Tid] (S : Sys Op Res Lbl Tid Call Ret σ) (s₀ : σ) (K : Kind Call Ret)
    (bound cap : Nat) (fits : Call → Act Elem → Prop)
    (returns : Call → Ret → Option (Act Elem) → Prop)
    (effects : List (Event Op Res Tid Call Ret) → List (Nat × Act Elem)) : Prop
    extends K.Tells bound fits returns where
  linearized : ∀ {tr c}, Run S (.start s₀) tr c →
    (puts ((effects tr).map Prod.snd)).length < bound →
    Linearized cap [] fits returns tr (effects tr)
  nil : effects [] = []
  call : ∀ tr t id a, effects (tr ++ [.call t id a]) = effects tr
  op : ∀ tr t id a o r, effects (tr ++ [.op t id a o r]) = effects tr ∨
    ∃ act, effects (tr ++ [.op t id a o r]) = effects tr ++ [(id, act)]
  ret : ∀ tr t id a v, effects (tr ++ [.ret t id a v]) = effects tr

section Serves

variable [DecidableEq Tid] {S : Sys Op Res Lbl Tid Call Ret σ} {s₀ : σ} {K : Kind Call Ret}
  {bound cap : Nat} {fits : Call → Act Elem → Prop}
  {returns : Call → Ret → Option (Act Elem) → Prop}
  {effects : List (Event Op Res Tid Call Ret) → List (Nat × Act Elem)}
  {past : List (Event Op Res Tid Call Ret)} {c : Config Op Res Lbl Tid Call Ret σ} {t : Tid}
  {id : Nat} {v : Ret}

theorem Serves.of_queueOps {π : Type} {V : QueueOps Op Res Call π Elem}
    (hK : K.Tells bound fits returns)
    (hlin : ∀ {tr c}, Run S (.start s₀) tr c → (claims V.put tr).length < bound →
      Linearized cap [] fits returns tr (V.lin [] tr).acts) :
    Serves S s₀ K bound cap fits returns fun tr => (V.lin [] tr).acts where
  toTells := hK
  linearized h hlt := hlin h (QueueOps.length_puts_lin (V := V) ▸ hlt)
  nil := rfl
  call _ _ _ _ := congrArg QueueOps.Lin.acts QueueOps.lin_snoc_call
  op _ _ _ _ _ _ := QueueOps.lin_snoc_or
  ret _ _ _ _ _ := congrArg QueueOps.Lin.acts QueueOps.lin_snoc_ret

theorem effect_lt (h : Run S (.start s₀) past c)
    (hlin : Linearized cap [] fits returns past (effects past)) {a : Act Elem}
    (ha : (id, a) ∈ effects past) : id < c.fresh := by
  obtain ⟨t, b, hb, -⟩ := hlin.called ha
  exact h.orderly.old _ hb

theorem Serves.enq (hK : Serves S s₀ K bound cap fits returns effects)
    (h : Run S (.start s₀) past c) (hlin : Linearized cap [] fits returns past (effects past))
    {bs : List Byte} (hc : .call t id (K.push bs) ∈ past) {a : Act Elem}
    (ha : (id, a) ∈ effects past) : ∃ k, a = .enq k (.ofList bs) := by
  obtain ⟨u, b, hb, hfits⟩ := hlin.called ha
  obtain ⟨rfl, rfl⟩ := h.call_unique hc hb
  exact hK.push_fits hfits

theorem Serves.deq (hK : Serves S s₀ K bound cap fits returns effects)
    (h : Run S (.start s₀) past c) (hlin : Linearized cap [] fits returns past (effects past))
    {size : Nat} (hc : .call t id (K.pop size) ∈ past) {a : Act Elem}
    (ha : (id, a) ∈ effects past) : ∃ k e, a = .deq k e := by
  obtain ⟨u, b, hb, hfits⟩ := hlin.called ha
  obtain ⟨rfl, rfl⟩ := h.call_unique hc hb
  exact hK.pop_fits hfits

/-- A push that returns an error had no effect. -/
theorem Serves.no_effect (hK : Serves S s₀ K bound cap fits returns effects)
    (h : Run S (.start s₀) past c) (hlin : Linearized cap [] fits returns past (effects past))
    (hbound : (puts ((effects past).map Prod.snd)).length < bound) {bs : List Byte}
    (hr : .ret t id (K.push bs) v ∈ past) (hv : K.rc v < 0) (a : Act Elem) :
    (id, a) ∉ effects past := by
  rcases hlin.ret hr with ⟨b, hb, hret⟩ | ⟨hnone, -⟩
  · obtain ⟨k, rfl⟩ := hK.enq h hlin (h.ret_called hr) hb
    have hpos := hK.pushed (Nat.lt_trans (hlin.number_lt hb) hbound) hret
    exact absurd hpos (Int.not_le.2 hv)
  · exact hnone a

/-- A pop that returns no error has taken out the element whose bytes it has written. -/
theorem Serves.effect (hK : Serves S s₀ K bound cap fits returns effects)
    (h : Run S (.start s₀) past c) (hlin : Linearized cap [] fits returns past (effects past))
    {size : Nat} (hr : .ret t id (K.pop size) v ∈ past) (hv : 0 ≤ K.rc v) :
    ∃ k e, (id, .deq k e) ∈ effects past ∧ (K.buf v).length = size ∧ Agree (K.buf v) e := by
  rcases hlin.ret hr with ⟨b, hb, hret⟩ | ⟨-, hret⟩
  · obtain ⟨k, e, rfl⟩ := hK.deq h hlin (h.ret_called hr) hb
    exact ⟨k, e, hb, hK.popped hret⟩
  · exact absurd hv (Int.not_le.2 (hK.empty hret))

end Serves

/-! ## Numbers -/

/-- What a fetch takes from counter `c`. -/
def fetched (c : Counter) : (o : Use Own Call) → Use.Res Own.Res Call Ret o → Option SizeT
  | .own (.fetchAdd c'), x => if c' = c then some x else none
  | _, _ => none

/-- The numbers taken from counter `c`. -/
abbrev fetches (c : Counter) (tr : List (TestEv Tid Call Ret)) : List (Claim Tid Job SizeT) :=
  claims (fetched c) tr

/-- The number a producer is busy with. -/
def Role.held : Role Ret → Option SizeT
  | .filled k _ | .pushing k _ => some k
  | _ => none

/-- The roles of each job, with what is known of the object to push. -/
def RoleOf (cs : Constants) : Job → Role Ret → Prop
  | .producer _, .next | .producer _, .ended .pushed _ => True
  | .producer _, .filled k bs | .producer _, .pushing k bs => k < cs.n ∧ Intact k bs
  | .consumer, .taken _ | .consumer, .claimed | .consumer, .popping
  | .consumer, .ended .got _ => True
  | _, _ => False

variable {K : Kind Call Ret} {cs : Constants} {l l' : Role Ret} {o : Use Own Call}
  {x : Use.Res Own.Res Call Ret o} {j : Job} {k : SizeT} {c : Counter}

theorem Trans.roleOf (h : Trans K cs l o x l') (hj : RoleOf cs j l) : RoleOf cs j l' := by
  cases h with
  | fill hk hi =>
    cases j with
    | producer o => exact ⟨hk, hi⟩
    | consumer => exact hj.elim
  | pushed _ =>
    cases j with
    | producer o => trivial
    | consumer => exact hj.elim
  | stampStart | push | pushAgain _ | pushedAll _ =>
    cases j with
    | producer o => exact hj
    | consumer => exact hj.elim
  | _ =>
    cases j with
    | producer o => exact hj.elim
    | consumer => trivial

theorem Trans.held (h : Trans K cs l o x l') (hk : l'.held = some k) :
    l.held = some k ∨ fetched .pushed o x = some k := by
  cases h with
  | fill _ _ =>
    obtain rfl := Option.some.inj hk
    exact .inr rfl
  | stampStart | push | pushAgain _ => exact .inl hk
  | _ => cases hk

/-- A number too large that is taken from counter `c`. -/
def tooLarge (cs : Constants) (c : Counter) (o : Use Own Call) (x : Use.Res Own.Res Call Ret o) :
    Option SizeT :=
  (fetched c o x).filter fun k => !decide (k < cs.n)

/-- The number with which a thread has ended its loop. -/
def Role.last (c : Counter) : Role Ret → Option SizeT
  | .ended c' k => if c' = c then some k else none
  | _ => none

theorem Trans.last_keep (h : Trans K cs l o x l') (hx : tooLarge cs c o x = none) :
    l'.last c = l.last c := by
  cases h with
  | pushedAll hk =>
    cases c with
    | pushed => simp [tooLarge, fetched, Option.filter_some, hk] at hx
    | got => rfl
  | gotAll hk =>
    cases c with
    | pushed => rfl
    | got => simp [tooLarge, fetched, Option.filter_some, hk] at hx
  | _ => rfl

theorem Trans.last_take (h : Trans K cs l o x l') (hx : tooLarge cs c o x = some k) :
    l.last c = none ∧ l'.last c = some k := by
  cases h with
  | fill hk _ =>
    cases c with
    | pushed => simp [tooLarge, fetched, Option.filter_some, hk] at hx
    | got => cases hx
  | claim hk =>
    cases c with
    | pushed => cases hx
    | got => simp [tooLarge, fetched, Option.filter_some, hk] at hx
  | pushedAll hk =>
    cases c with
    | pushed =>
      simp only [tooLarge, fetched, if_true, Option.filter_some, decide_eq_false hk] at hx
      exact ⟨rfl, hx⟩
    | got => cases hx
  | gotAll hk =>
    cases c with
    | pushed => cases hx
    | got =>
      simp only [tooLarge, fetched, if_true, Option.filter_some, decide_eq_false hk] at hx
      exact ⟨rfl, hx⟩
  | _ => cases hx

/-- What is known of the threads and the numbers. -/
structure Known (cs : Constants) (tr : List (TestEv Tid Call Ret)) (own : Counter → SizeT)
    (R : Roles Tid Job (Role Ret)) : Prop where
  role : ∀ t x, R t = some x → RoleOf cs x.call x.role
  /-- The `k`-th number taken from a counter is `k`. -/
  order : ∀ c, InOrder word (fetches c tr)
  count : ∀ c, own c = word (fetches c tr).length
  held : ∀ {t x k}, R t = some x → x.role.held = some k →
    ∃ d ∈ fetches .pushed tr, d.thread = t ∧ d.pos = k

section Known

variable {tr : List (TestEv Tid Call Ret)} {own own' : Counter → SizeT}
  {R : Roles Tid Job (Role Ret)} {t u : Tid} {id : Nat}

/-- Different threads hold different numbers, as long as the counter has not wrapped. -/
theorem Known.held_inj (h : Known cs tr own R) (hlt : (fetches .pushed tr).length ≤ 2 ^ 64)
    {a b : Active Job (Role Ret)} (ht : R t = some a) (hu : R u = some b)
    (ha : a.role.held = some k) (hb : b.role.held = some k) : t = u := by
  obtain ⟨d, hd, rfl, hk⟩ := h.held ht ha
  obtain ⟨d', hd', rfl, hk'⟩ := h.held hu hb
  obtain ⟨i, hi⟩ := List.mem_iff_getElem?.1 hd
  obtain ⟨i', hi'⟩ := List.mem_iff_getElem?.1 hd'
  have hlti := (List.getElem?_eq_some_iff.1 hi).1
  have hlti' := (List.getElem?_eq_some_iff.1 hi').1
  have hword : word i = word i' :=
    (h.order _ i d hi).symm.trans (hk.trans (hk'.symm.trans (h.order _ i' d' hi')))
  have heq := congrArg toNat hword
  rw [toNat_word, toNat_word, Nat.mod_eq_of_lt (by omega), Nat.mod_eq_of_lt (by omega)] at heq
  subst heq
  rw [Option.some.inj (hi.symm.trans hi')]

/-- A number that is taken has not been taken before. -/
theorem Known.fresh (h : Known cs tr own R) (hlt : (fetches c tr).length < 2 ^ 64) :
    ∀ d ∈ fetches c tr, d.pos ≠ own c := by
  intro d hd hpos
  obtain ⟨i, hi⟩ := List.mem_iff_getElem?.1 hd
  have hlti := (List.getElem?_eq_some_iff.1 hi).1
  have heq := congrArg toNat ((h.order _ i d hi).symm.trans (hpos.trans (h.count c)))
  rw [toNat_word, toNat_word, Nat.mod_eq_of_lt (by omega), Nat.mod_eq_of_lt hlt] at heq
  omega

variable [DecidableEq Tid]

theorem Known.same {e : TestEv Tid Call Ret} {y : Option (Active Job (Role Ret))}
    (h : Known cs tr own R) (he : ∀ c, fetches c (tr ++ [e]) = fetches c tr)
    (hrole : ∀ x, y = some x → RoleOf cs x.call x.role)
    (hheld : ∀ x k, y = some x → x.role.held = some k →
      ∃ d ∈ fetches .pushed tr, d.thread = t ∧ d.pos = k) :
    Known cs (tr ++ [e]) own (Function.update R t y) where
  role u a ha := by
    rcases update_some_iff.1 ha with ⟨-, hy⟩ | ⟨-, ha⟩
    · exact hrole a hy
    · exact h.role u a ha
  order c := by
    rw [he]
    exact h.order c
  count c := by
    rw [he]
    exact h.count c
  held ha hk := by
    rw [he]
    rcases update_some_iff.1 ha with ⟨rfl, hy⟩ | ⟨-, ha⟩
    · exact hheld _ _ hy hk
    · exact h.held ha hk

/-- The move of a thread, by what it takes from the counters. -/
theorem Known.move (h : Known cs tr own R) (ht : R t = some ⟨id, j, l⟩) (hm : Trans K cs l o x l')
    (hown : ∀ c, own' c = own c + (if fetched c o x = none then 0 else 1))
    (hx : ∀ c k, fetched c o x = some k → k = own c) :
    Known cs (tr ++ [.op t id j o x]) own' (Function.update R t (some ⟨id, j, l'⟩)) where
  role u a ha := by
    rcases update_some_iff.1 ha with ⟨-, hy⟩ | ⟨-, ha⟩
    · obtain rfl := Option.some.inj hy
      exact hm.roleOf (h.role t _ ht)
    · exact h.role u a ha
  order c := by
    cases hf : fetched c o x with
    | none =>
      rw [fetches, claims_snoc_none hf]
      exact h.order c
    | some k =>
      rw [fetches, claims_snoc_some hf]
      exact (h.order c).snoc ((hx c k hf).trans (h.count c))
  count c := by
    rw [hown, h.count]
    cases hf : fetched c o x with
    | none =>
      rw [fetches, fetches, claims_snoc_none hf, if_pos rfl]
      exact BitVec.add_zero _
    | some k =>
      rw [fetches, fetches, claims_snoc_some hf, List.length_append, if_neg (by simp)]
      exact word_succ _
  held {u a k} ha hk := by
    rcases update_some_iff.1 ha with ⟨rfl, hy⟩ | ⟨-, ha⟩
    · obtain rfl := Option.some.inj hy
      rcases hm.held hk with hk | hk
      · obtain ⟨d, hd, hdk⟩ := h.held ht hk
        exact ⟨d, mem_claims_append hd _, hdk⟩
      · refine ⟨⟨u, id, j, k⟩, ?_, rfl, rfl⟩
        rw [fetches, claims_snoc_some hk]
        exact List.mem_append_right _ (List.mem_singleton_self _)
    · obtain ⟨d, hd, hdk⟩ := h.held ha hk
      exact ⟨d, mem_claims_append hd _, hdk⟩

variable {S : Sys Op Res Lbl Tid Call Ret σ} {s₀ : σ}
  {allow : (Tid → Option Job) → Tid → Job → Prop}
  {A : List (TestEv Tid Call Ret) → TestWorld Op Res Lbl Tid Call Ret σ →
    Roles Tid Job (Role Ret) → Prop}

theorem known_inductive : InductiveUnder (proto K cs) (sys K cs S allow)
    (.start s₀ fun _ => 0) A fun tr w R => Known cs tr w.own R where
  init _ := by
    refine ⟨?_, fun _ => .nil, fun _ => rfl, ?_⟩
    · simp
    · simp
  call {tr w R t id j} _ _ h _ _ _ := by
    refine h.same (fun _ => claims_snoc_call) ?_ ?_
    · intro x hx
      obtain rfl := Option.some.inj hx
      cases j <;> trivial
    · intro x k hx hk
      obtain rfl := Option.some.inj hx
      cases j <;> cases hk
  op {n tr w R t id j l o x l' w'} _ _ h ht hm he _ := by
    cases o with
    | own o =>
      obtain ⟨s, hs, rfl⟩ := he
      cases o with
      | fetchAdd c₀ =>
        obtain ⟨rfl, rfl⟩ := hs
        refine h.move ht hm (fun c => ?_) fun c k hk => ?_
        · by_cases hc : c = c₀
          · subst hc
            simp [fetched]
          · simp [fetched, hc, Ne.symm hc]
        · simp only [fetched] at hk
          split at hk
          case isTrue hc => exact hc ▸ (Option.some.inj hk).symm
          case isFalse => cases hk
      | stamp c i =>
        obtain rfl := hs
        exact h.move ht hm (fun c => (BitVec.add_zero _).symm) fun c k hk => by cases hk
      | abort =>
        obtain rfl := hs
        exact h.move ht hm (fun c => (BitVec.add_zero _).symm) fun c k hk => by cases hk
    | make a =>
      obtain ⟨c, -, rfl⟩ := he
      exact h.move ht hm (fun c => (BitVec.add_zero _).symm) fun c k hk => by cases hk
    | await =>
      obtain ⟨i, a, c, -, rfl⟩ := he
      exact h.move ht hm (fun c => (BitVec.add_zero _).symm) fun c k hk => by cases hk
  ret {n tr w R t id j l v} _ _ h _ _ _ := by
    refine h.same (fun _ => claims_snoc_ret) ?_ ?_
    · simp
    · simp
  env _ h he _ := by
    obtain ⟨e, c, -, -, rfl⟩ := he
    exact h

end Known

end Harness

end RingBuf
