import RingBuf.Harness.Pushes

/-!
# Each number is delivered once, intact

What a successful pop hands to a consumer are the bytes of an object that one of the producers has
filled (`Pushes.delivery`), and no object is handed out twice. A consumer that takes a number from
`got` leaves its loop with one object for it (`Delivers.count`), so when the consumers are done they
have got as many objects as there are numbers: each number once (`Sound.all`).
-/

namespace RingBuf

open Conc Bytes Word LawfulWord

namespace Harness

variable {Op : Type} {Res : Op → Type} {Lbl Tid Call Ret σ : Type} [DecidableEq Tid]
  {S : Sys Op Res Lbl Tid Call Ret σ} {s₀ : σ} {K : Kind Call Ret} {cs : Constants}
  {bound cap : Nat} {fits : Call → Act Elem → Prop}
  {returns : Call → Ret → Option (Act Elem) → Prop}
  {effects : List (Event Op Res Tid Call Ret) → List (Nat × Act Elem)}
  {tr : List (TestEv Tid Call Ret)} {w w' : TestWorld Op Res Lbl Tid Call Ret σ}
  {R : Roles Tid Job (Role Ret)} {t u : Tid} {id i i' : Nat} {j : Job} {k : SizeT}
  {l l' : Role Ret} {v v' : Ret} {o : Use Own Call} {x : Use.Res Own.Res Call Ret o}

/-! ## The way of an object -/

/-- What a successful pop has written is the object of a push that went in under the number under
which it has come out. -/
theorem Pushes.delivery (hK : Serves S s₀ K bound cap fits returns effects)
    (hrun : Run S (.start s₀) w.past w.object)
    (h : Pushes K cs cap fits returns effects tr w R)
    (hr : .ret t i (K.pop sizeofObj) v ∈ w.past) (hv : 0 ≤ K.rc v) :
    ∃ n e p k, (i, .deq n e) ∈ effects w.past ∧ (p, .enq n e) ∈ effects w.past ∧
      PushOf K w.past p k ∧ k < cs.n ∧ Intact k (K.buf v) := by
  obtain ⟨n, e, hdeq, hlen, hagree⟩ := hK.effect hrun h.lin hr hv
  obtain ⟨p, henq⟩ := h.lin.put_of_take hdeq
  obtain ⟨u, b, hb, hfits⟩ := h.lin.called henq
  rcases h.made hb with ⟨k, bs, rfl, hbs, hk, -⟩ | rfl
  · obtain ⟨_, he⟩ := hK.push_fits hfits
    cases he
    have heq : K.buf v = bs := by
      apply List.ext_getElem?
      intro m
      by_cases hm : m < sizeofObj
      · have h₁ : m < (K.buf v).length := by omega
        have h₂ : m < bs.length := by rw [hbs.length]; exact hm
        rw [List.getElem?_eq_getElem h₁, List.getElem?_eq_getElem h₂]
        exact congrArg some
          (hagree m _ _ (List.getElem?_eq_getElem h₁) (List.getElem?_eq_getElem h₂))
      · rw [List.getElem?_eq_none (by omega), List.getElem?_eq_none (by rw [hbs.length]; omega)]
    exact ⟨n, _, p, k, hdeq, henq, ⟨u, bs, hb, hbs⟩, hk, heq ▸ hbs⟩
  · obtain ⟨k, e', he⟩ := hK.pop_fits hfits
    cases he

/-- No two pops get objects with one number. -/
theorem Pushes.same_number (hK : Serves S s₀ K bound cap fits returns effects)
    (hrun : Run S (.start s₀) w.past w.object)
    (h : Pushes K cs cap fits returns effects tr w R)
    (hr : .ret t i (K.pop sizeofObj) v ∈ w.past) (hv : 0 ≤ K.rc v)
    (hr' : .ret u i' (K.pop sizeofObj) v' ∈ w.past) (hv' : 0 ≤ K.rc v')
    (hseq : seq (ofBytes (K.buf v)) = seq (ofBytes (K.buf v'))) : i = i' := by
  obtain ⟨n, e, p, k, hdeq, henq, hp, -, hbuf⟩ := h.delivery hK hrun hr hv
  obtain ⟨n', e', p', k', hdeq', henq', hp', -, hbuf'⟩ := h.delivery hK hrun hr' hv'
  obtain rfl : k = k' := hbuf.seq.symm.trans (hseq.trans hbuf'.seq)
  obtain rfl := h.unique henq henq' hp hp'
  cases h.lin.eq_of_mem henq henq'
  exact h.lin.take_inj hdeq hdeq'

/-! ## Deliveries -/

/-- A consumer. -/
def Job.consumes : Job → Bool
  | .producer _ => false
  | .consumer => true

/-- What a call that succeeds returns. -/
def returned (K : Kind Call Ret) : (o : Use Own Call) → Use.Res Own.Res Call Ret o → Option Ret
  | .await, v => if 0 ≤ K.rc v then some v else none
  | _, _ => none

/-- What the pops of the consumers have returned when they succeeded. -/
def delivered (K : Kind Call Ret) (tr : List (TestEv Tid Call Ret)) : List (Claim Tid Job Ret) :=
  (claims (returned K) tr).filter fun d => d.call.consumes

/-- The numbers for which the consumers want an object. -/
def wanted (cs : Constants) (tr : List (TestEv Tid Call Ret)) : List (Claim Tid Job SizeT) :=
  (fetches .got tr).filter fun d => d.pos < cs.n

/-- Whether a thread has taken a number from `got` and has no object for it yet. -/
def Role.waits : Role Ret → Nat
  | .claimed | .popping => 1
  | _ => 0

/-- What an operation adds to the wanted, and to the delivered ones. -/
def wants (cs : Constants) (o : Use Own Call) (x : Use.Res Own.Res Call Ret o) : Nat :=
  ((fetched .got o x).filter fun k => k < cs.n).toList.length

def gets (K : Kind Call Ret) (j : Job) (o : Use Own Call) (x : Use.Res Own.Res Call Ret o) : Nat :=
  ((returned K o x).filter fun _ => j.consumes).toList.length

omit [DecidableEq Tid] in
theorem wanted_snoc (tr : List (TestEv Tid Call Ret)) (t : Tid) (id : Nat) (j : Job)
    (o : Use Own Call) (x : Use.Res Own.Res Call Ret o) :
    wanted cs (tr ++ [.op t id j o x]) = wanted cs tr ++
      ((fetched .got o x).filter fun k => k < cs.n).toList.map (⟨t, id, j, ·⟩) := by
  cases hf : fetched .got o x with
  | none =>
    rw [wanted, fetches, claims_snoc_none hf]
    exact (List.append_nil _).symm
  | some k =>
    rw [wanted, fetches, claims_snoc_some hf, List.filter_append, wanted]
    by_cases hk : k < cs.n
    · simp [hk, Option.filter_some]
    · simp [hk, Option.filter_some]

omit [DecidableEq Tid] in
theorem delivered_snoc (tr : List (TestEv Tid Call Ret)) (t : Tid) (id : Nat) (j : Job)
    (o : Use Own Call) (x : Use.Res Own.Res Call Ret o) :
    delivered K (tr ++ [.op t id j o x]) = delivered K tr ++
      ((returned K o x).filter fun _ => j.consumes).toList.map (⟨t, id, j, ·⟩) := by
  cases hf : returned K o x with
  | none =>
    rw [delivered, claims_snoc_none hf]
    exact (List.append_nil _).symm
  | some v =>
    rw [delivered, claims_snoc_some hf, List.filter_append, delivered]
    cases hj : j.consumes with
    | true => simp [hj, Option.filter_some]
    | false => simp [hj, Option.filter_some]

omit [DecidableEq Tid] in
theorem Trans.count (h : Trans K cs l o x l') (hj : RoleOf cs j l) :
    wants cs o x + l.waits = gets K j o x + l'.waits := by
  have hproduces : ∀ {k bs}, RoleOf cs j (.pushing k bs : Role Ret) → j.consumes = false := by
    intro k bs hj
    cases j with
    | producer o => rfl
    | consumer => exact hj.elim
  have hconsumes : RoleOf cs j (.popping : Role Ret) → j.consumes = true := by
    intro hj
    cases j with
    | producer o => exact hj.elim
    | consumer => rfl
  cases h with
  | claim hk => simp [wants, gets, fetched, returned, Role.waits, hk, Option.filter_some]
  | gotAll hk => simp [wants, gets, fetched, returned, Role.waits, hk, Option.filter_some]
  | pushed hv => simp [wants, gets, fetched, returned, Role.waits, hproduces hj]
  | pushAgain hv => simp [wants, gets, fetched, returned, Role.waits, hproduces hj]
  | popped hv =>
    simp [wants, gets, fetched, returned, Role.waits, hv, hconsumes hj, Option.filter_some]
  | popAgain hv => simp [wants, gets, fetched, returned, Role.waits, Int.not_le.2 hv]
  | _ => simp [wants, gets, fetched, returned, Role.waits]

/-- What the consumers have got so far. -/
structure Delivers (K : Kind Call Ret) (cs : Constants) (tr : List (TestEv Tid Call Ret))
    (w : TestWorld Op Res Lbl Tid Call Ret σ) (R : Roles Tid Job (Role Ret)) : Prop where
  /-- Each delivery is the return of a pop of its own. -/
  pops : ∃ ids : List Nat, ids.Nodup ∧
    List.Forall₂ (fun d i => .ret d.thread i (K.pop sizeofObj) d.pos ∈ w.past ∧ 0 ≤ K.rc d.pos)
      (delivered K tr) ids
  got : ∀ {t x v}, R t = some x → x.role = .taken (some v) →
    ∃ k, k < cs.n ∧ Intact k (K.buf v)
  /-- Every thread has got an object for each number, but for the one it is waiting for. -/
  count : ∀ t, (wanted cs tr).countP (fun d => d.thread = t) =
    (delivered K tr).countP (fun d => d.thread = t) + (R t).elim 0 fun x => x.role.waits

theorem Delivers.same {e : TestEv Tid Call Ret} {y : Option (Active Job (Role Ret))}
    (h : Delivers K cs tr w R) (hd : delivered K (tr ++ [e]) = delivered K tr)
    (hw : wanted cs (tr ++ [e]) = wanted cs tr)
    (hwaits : (R t).elim 0 (fun x => x.role.waits) = y.elim 0 fun x => x.role.waits)
    (hgot : ∀ x v, y = some x → x.role ≠ .taken (some v)) :
    Delivers K cs (tr ++ [e]) w (Function.update R t y) where
  pops := by
    rw [hd]
    exact h.pops
  got hx hr := by
    rcases update_some_iff.1 hx with ⟨-, hy⟩ | ⟨-, hx⟩
    · exact absurd hr (hgot _ _ hy)
    · exact h.got hx hr
  count u := by
    rw [hd, hw, h.count u]
    by_cases hu : u = t
    · subst hu
      rw [Function.update_self, hwaits]
    · rw [Function.update_of_ne hu]

theorem Delivers.move (h : Delivers K cs tr w R) (hknown : Known cs tr w.own R)
    (ht : R t = some ⟨id, j, l⟩) (hm : Trans K cs l o x l')
    (hpops : ∃ ids : List Nat, ids.Nodup ∧
      List.Forall₂ (fun d i => .ret d.thread i (K.pop sizeofObj) d.pos ∈ w'.past ∧ 0 ≤ K.rc d.pos)
        (delivered K (tr ++ [.op t id j o x])) ids)
    (hgot : ∀ v, l' = .taken (some v) → ∃ k, k < cs.n ∧ Intact k (K.buf v)) :
    Delivers K cs (tr ++ [.op t id j o x]) w' (Function.update R t (some ⟨id, j, l'⟩)) where
  pops := hpops
  got hy hr := by
    rcases update_some_iff.1 hy with ⟨-, hy⟩ | ⟨-, hy⟩
    · obtain rfl := Option.some.inj hy
      exact hgot _ hr
    · exact h.got hy hr
  count u := by
    have hold := h.count u
    rw [wanted_snoc, delivered_snoc, List.countP_append, List.countP_append, hold]
    by_cases hu : u = t
    · subst hu
      have hrole : RoleOf cs j l := hknown.role u _ ht
      have hcount := hm.count hrole
      have hall : ∀ {α : Type} (ys : List α),
          (ys.map fun y => (⟨u, id, j, y⟩ : Claim Tid Job α)).countP
            (fun d => decide (d.thread = u)) = ys.length := by
        intro α ys
        rw [List.countP_map]
        exact List.countP_eq_length.2 fun y _ => decide_eq_true rfl
      rw [ht, Function.update_self, hall, hall]
      show _ + l.waits + wants cs o x = _ + gets K j o x + l'.waits
      omega
    · have hnone : ∀ {α : Type} (ys : List α),
          (ys.map fun y => (⟨t, id, j, y⟩ : Claim Tid Job α)).countP
            (fun d => decide (d.thread = u)) = 0 := by
        intro α ys
        rw [List.countP_map, List.countP_eq_zero]
        exact fun y _ => by simpa using Ne.symm hu
      rw [Function.update_of_ne hu, hnone, hnone]
      omega

omit [DecidableEq Tid] in
theorem delivered_none (tr : List (TestEv Tid Call Ret)) (t : Tid) (id : Nat)
    (h : ∀ v, returned K o x = some v → j.consumes = false) :
    delivered K (tr ++ [.op t id j o x]) = delivered K tr := by
  rw [delivered_snoc]
  cases hr : returned K o x with
  | none => exact List.append_nil _
  | some v =>
    rw [Option.filter_some, h v hr]
    exact List.append_nil _

/-- **The consumers get the objects that were pushed.** -/
theorem delivers_inductive (hK : Serves S s₀ K bound cap fits returns effects)
    {allow : (Tid → Option Job) → Tid → Job → Prop} :
    InductiveUnder (proto K cs) (sys K cs S allow) (.start s₀ fun _ => 0)
      (fun tr w R => (Using S s₀ (Role.inside K) w R ∧ Known cs tr w.own R) ∧
        Pushes K cs cap fits returns effects tr w R)
      fun tr w R => Delivers K cs tr w R where
  init _ := by
    refine ⟨⟨[], List.nodup_nil, .nil⟩, ?_, fun t => rfl⟩
    intro t x v hx
    cases hx
  call {tr w R t id j} _ _ h ht _ _ := by
    refine h.same ?_ ?_ ?_ ?_
    · rw [delivered, claims_snoc_call, delivered]
    · rw [wanted, fetches, claims_snoc_call, wanted]
    · rw [ht]
      cases j <;> rfl
    · intro x v hx hr
      obtain rfl := Option.some.inj hx
      cases j <;> cases hr
  op {n tr w R t id j l o x l' w'} _ hA h ht hm he hA' := by
    obtain ⟨⟨hu, hknown⟩, -⟩ := hA
    obtain ⟨⟨hu', -⟩, hpushes'⟩ := hA'
    have hrole := hknown.role t _ ht
    obtain ⟨ids, hnodup, hids⟩ := h.pops
    have keep (hnone : ∀ v, returned K o x = some v → j.consumes = false)
        (hpast : ∀ e ∈ w.past, e ∈ w'.past) (hl : ∀ v, l' = .taken (some v) → False) :
        Delivers K cs (tr ++ [.op t id j o x]) w' (Function.update R t (some ⟨id, j, l'⟩)) := by
      refine h.move hknown ht hm ⟨ids, hnodup, ?_⟩ fun v hv => (hl v hv).elim
      rw [delivered_none tr t id hnone]
      exact hids.imp fun d i hd => ⟨hpast _ hd.1, hd.2⟩
    cases o with
    | own o =>
      obtain ⟨s, -, rfl⟩ := he
      refine keep (fun v hv => by cases hv) (fun e he => he) fun v hv => ?_
      subst hv
      cases hm
    | make b =>
      obtain ⟨c, -, rfl⟩ := he
      refine keep (fun v hv => by cases hv) (fun e he => List.mem_append_left _ he) fun v hv => ?_
      subst hv
      cases hm
    | await =>
      obtain ⟨i, b, c, hs, rfl⟩ := he
      have hmono : ∀ e ∈ w.past, e ∈ w.past ++ [.ret t i b x] := fun e he =>
        List.mem_append_left _ he
      cases hm with
      | pushAgain hv =>
        refine keep (fun v hr => ?_) hmono fun v hl => by cases hl
        rw [returned, if_neg (Int.not_le.2 hv)] at hr
        cases hr
      | pushed hv =>
        refine keep (fun v hr => ?_) hmono fun v hl => by cases hl
        cases j with
        | producer o => rfl
        | consumer => exact hrole.elim
      | popAgain hv =>
        refine keep (fun v hr => ?_) hmono fun v hl => by cases hl
        rw [returned, if_neg (Int.not_le.2 hv)] at hr
        cases hr
      | popped hv =>
        have hmem : .ret t i b x ∈ w.past ++ [.ret t i b x] := by simp
        -- The call is the pop that the thread waits for.
        obtain rfl : b = K.pop sizeofObj := by
          cases hs with
          | ret hrun =>
            obtain ⟨y, hy, hin⟩ := hu.role hrun
            obtain rfl := Option.some.inj (ht.symm.trans hy)
            exact (Option.some.inj hin).symm
        cases j with
        | producer o => exact hrole.elim
        | consumer =>
          have hdel : delivered K (tr ++ [.op t id .consumer .await x]) =
              delivered K tr ++ [⟨t, id, .consumer, x⟩] := by
            rw [delivered_snoc, returned, if_pos hv]
            rfl
          refine h.move hknown ht (.popped hv) ⟨ids ++ [i], ?_, ?_⟩ fun v hl => ?_
          · refine List.nodup_append.2 ⟨hnodup, List.nodup_singleton i, fun i₁ hi₁ i₂ hi₂ heq => ?_⟩
            obtain rfl := List.mem_singleton.1 hi₂
            subst heq
            -- An earlier return of the same call would have been its last event.
            obtain ⟨m, hm, rfl⟩ := List.getElem_of_mem hi₁
            have hlen := hids.length_eq
            have hret := (List.Forall₂.get hids (i := m) (by omega) hm).1
            exact hu'.run.ret_once _ hret
          · rw [hdel]
            exact List.rel_append (hids.imp fun d i hd => ⟨hmono _ hd.1, hd.2⟩)
              (.cons ⟨hmem, hv⟩ .nil)
          · obtain rfl := Option.some.inj (Role.taken.inj hl)
            obtain ⟨-, -, -, k, -, -, -, hk, hbuf⟩ := hpushes'.delivery hK hu'.run hmem hv
            exact ⟨k, hk, hbuf⟩
  ret {n tr w R t id j l v} _ hA h ht hf _ := by
    refine h.same ?_ ?_ ?_ ?_
    · rw [delivered, claims_snoc_ret, delivered]
    · rw [wanted, fetches, claims_snoc_ret, wanted]
    · rw [ht]
      cases l with
      | ended c k => rfl
      | _ => exact hf.elim
    · intro x v hx
      cases hx
  env {tr w R w'} _ h he _ := by
    obtain ⟨e, c, -, -, rfl⟩ := he
    obtain ⟨ids, hnodup, hids⟩ := h.pops
    exact ⟨⟨ids, hnodup, hids.imp fun d i hd => ⟨List.mem_append_left _ hd.1, hd.2⟩⟩, h.got,
      h.count⟩

end Harness

end RingBuf
