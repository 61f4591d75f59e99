import RingBuf.Conc.History

/-!
# Threads that use an object

The threads of an object's system make their calls as they like. Here each thread runs a program of
its own, which calls the object in between (`Use`): it makes a call and waits for what the call
returns, and meanwhile the call goes on step by step as the object's system has it. The threads
together with the object are a system again (`Sys.use`), whose shared state holds the object with
its history (`World`).

A protocol of the threads' programs that knows in which call of the object a role is (`Awaits`)
makes the object's history that of a run of its own system, with each thread in the call its role
waits for (`using_inductive`).
-/

namespace Conc

/-- What a thread does that uses an object: something of its own, a call, or waiting for what the
call returns. -/
inductive Use (COp Call : Type)
  | own (o : COp)
  | make (a : Call)
  | await

/-- What it is answered. -/
@[reducible] def Use.Res {COp : Type} (CRes : COp → Type) (Call Ret : Type) : Use COp Call → Type
  | .own o => CRes o
  | .make _ => Unit
  | .await => Ret

/-- An object with its history, and what its users share besides. -/
structure World (Op : Type) (Res : Op → Type) (Lbl Tid Call Ret σ κ : Type) where
  object : Config Op Res Lbl Tid Call Ret σ
  past : List (Event Op Res Tid Call Ret)
  own : κ

variable {Op : Type} {Res : Op → Type} {Lbl Tid Call Ret σ : Type} {COp : Type} {CRes : COp → Type}
  {CLbl Job Val κ ρ : Type} [DecidableEq Tid]

/-- A step inside the calls in progress. -/
def Inner : Option (Event Op Res Tid Call Ret) → Prop
  | none | some (.op ..) => True
  | _ => False

/-- The effect of what thread `t` does, where `exec` is that of its own operations. -/
def Use.exec (S : Sys Op Res Lbl Tid Call Ret σ) (exec : Tid → (o : COp) → κ → CRes o → κ → Prop)
    (t : Tid) : (o : Use COp Call) → World Op Res Lbl Tid Call Ret σ κ → Use.Res CRes Call Ret o →
      World Op Res Lbl Tid Call Ret σ κ → Prop
  | .own o, w, x, w' => ∃ s, exec t o w.own x s ∧ w' = { w with own := s }
  | .make a, w, _, w' => ∃ c, Step S w.object (some (.call t w.object.fresh a)) c ∧
      w' = { w with object := c, past := w.past ++ [.call t w.object.fresh a] }
  | .await, w, v, w' => ∃ id a c, Step S w.object (some (.ret t id a v)) c ∧
      w' = { w with object := c, past := w.past ++ [.ret t id a v] }

/-- The calls go on. -/
def Use.env (S : Sys Op Res Lbl Tid Call Ret σ) (w w' : World Op Res Lbl Tid Call Ret σ κ) : Prop :=
  ∃ e c, Step S w.object e c ∧ Inner e ∧ w' = { w with object := c, past := w.past ++ e.toList }

/-- The system of threads with programs that use an object. -/
def Sys.use (S : Sys Op Res Lbl Tid Call Ret σ) (exec : Tid → (o : COp) → κ → CRes o → κ → Prop)
    (body : Job → Prog (Use COp Call) (Use.Res CRes Call Ret) CLbl Val)
    (code : CLbl → Prog (Use COp Call) (Use.Res CRes Call Ret) CLbl Val)
    (allow : (Tid → Option Job) → Tid → Job → Prop) :
    Sys (Use COp Call) (Use.Res CRes Call Ret) CLbl Tid Job Val
      (World Op Res Lbl Tid Call Ret σ κ) where
  exec := Use.exec S exec
  env := Use.env S
  body := body
  code := code
  allow := allow

/-- A new object. -/
def World.start (s₀ : σ) (own : κ) : World Op Res Lbl Tid Call Ret σ κ := ⟨.start s₀, [], own⟩

/-! ## One step of the object -/

section Step

variable {S : Sys Op Res Lbl Tid Call Ret σ} {c c' : Config Op Res Lbl Tid Call Ret σ} {t u : Tid}
  {id : Nat} {a : Call} {v : Ret}

theorem call?_update {th : Tid → Thread Op Res Lbl Call Ret} {x : Thread Op Res Lbl Call Ret}
    (h : x.call? = (th t).call?) (u : Tid) :
    (Function.update th t x u).call? = (th u).call? := by
  by_cases hu : u = t
  · subst hu
    rw [Function.update_self, h]
  · rw [Function.update_of_ne hu]

theorem Step.call?_inner {e : Option (Event Op Res Tid Call Ret)} (h : Step S c e c')
    (he : Inner e) (u : Tid) : (c'.thread u).call? = (c.thread u).call? := by
  cases h with
  | call _ _ => exact he.elim
  | op ht _ =>
    apply call?_update
    rw [ht]
    rfl
  | jump ht =>
    apply call?_update
    rw [ht]
    rfl
  | ret _ => exact he.elim
  | env _ => rfl

theorem Step.stays {e : Option (Event Op Res Tid Call Ret)} (h : Step S c e c') (he : Inner e)
    {p : Prog Op Res Lbl Ret} (hu : c.thread u = .run id a p) :
    ∃ p', c'.thread u = .run id a p' := by
  have hrun := Run.single h
  refine hrun.stays hu fun t b v hv => ?_
  cases e with
  | none => cases hv
  | some e =>
    obtain rfl := List.mem_singleton.1 hv
    exact he

theorem Step.call?_call (h : Step S c (some (.call t id a)) c') :
    (c'.thread t).call? = some a ∧ ∀ u, u ≠ t → c'.thread u = c.thread u := by
  cases h with
  | call _ _ =>
    refine ⟨?_, fun u hu => Function.update_of_ne hu ..⟩
    show (Function.update c.thread t (.run c.fresh a (S.body a)) t).call? = _
    rw [Function.update_self]
    rfl

theorem Step.call?_ret (h : Step S c (some (.ret t id a v)) c') :
    (c'.thread t).call? = none ∧ ∀ u, u ≠ t → c'.thread u = c.thread u := by
  cases h with
  | ret _ =>
    refine ⟨?_, fun u hu => Function.update_of_ne hu ..⟩
    show (Function.update c.thread t .idle t).call? = _
    rw [Function.update_self]
    rfl

end Step

/-! ## Roles that wait for calls -/

/-- `inside l` is the call of the object that role `l` waits for. -/
structure Awaits (P : Proto (Use COp Call) (Use.Res CRes Call Ret) CLbl Job Val ρ)
    (inside : ρ → Option Call) : Prop where
  start : ∀ j, inside (P.start j) = none
  own : ∀ {l o x l'}, P.trans l (.own o) x l' → inside l' = inside l
  make : ∀ {l a x l'}, P.trans l (.make a) x l' → inside l' = some a
  await : ∀ {l v l'}, P.trans l .await v l' → inside l' = none
  final : ∀ {l v}, P.final l v → inside l = none

/-- The object has gone through a run of its system, and the calls in progress are those the roles
wait for. -/
structure Using (S : Sys Op Res Lbl Tid Call Ret σ) (s₀ : σ) (inside : ρ → Option Call)
    (w : World Op Res Lbl Tid Call Ret σ κ) (R : Roles Tid Job ρ) : Prop where
  run : Run S (.start s₀) w.past w.object
  call? : ∀ t, (w.object.thread t).call? = (R t).bind fun x => inside x.role

variable {S : Sys Op Res Lbl Tid Call Ret σ} {s₀ : σ} {inside : ρ → Option Call}
  {w w' : World Op Res Lbl Tid Call Ret σ κ} {R : Roles Tid Job ρ} {t : Tid} {id : Nat} {j : Job}
  {l : ρ}

omit [DecidableEq Tid] in
theorem Thread.eq_idle {th : Thread Op Res Lbl Call Ret} (h : th.call? = none) : th = .idle := by
  cases th with
  | idle => rfl
  | run id a p => cases h

theorem Using.idle (h : Using S s₀ inside w R) (ht : R t = some ⟨id, j, l⟩)
    (hl : inside l = none) : w.object.thread t = .idle := by
  have hcall := h.call? t
  rw [ht] at hcall
  exact Thread.eq_idle (hcall.trans hl)

theorem Using.role (h : Using S s₀ inside w R) {i : Nat} {a : Call} {p : Prog Op Res Lbl Ret}
    (ht : w.object.thread t = .run i a p) : ∃ x, R t = some x ∧ inside x.role = some a := by
  have hcall := h.call? t
  rw [ht] at hcall
  cases hR : R t with
  | none =>
    rw [hR] at hcall
    cases hcall
  | some x =>
    rw [hR] at hcall
    exact ⟨x, rfl, hcall.symm⟩

theorem Using.update (h : Using S s₀ inside w R) {y : Option (Active Job ρ)}
    (ht : (w'.object.thread t).call? = y.bind fun x => inside x.role)
    (hu : ∀ u, u ≠ t → w'.object.thread u = w.object.thread u) (u : Tid) :
    (w'.object.thread u).call? =
      (Function.update R t y u).bind fun x => inside x.role := by
  by_cases hut : u = t
  · subst hut
    rw [Function.update_self]
    exact ht
  · rw [Function.update_of_ne hut, hu u hut]
    exact h.call? u

variable {P : Proto (Use COp Call) (Use.Res CRes Call Ret) CLbl Job Val ρ}
  {exec : Tid → (o : COp) → κ → CRes o → κ → Prop}
  {body : Job → Prog (Use COp Call) (Use.Res CRes Call Ret) CLbl Val}
  {code : CLbl → Prog (Use COp Call) (Use.Res CRes Call Ret) CLbl Val}
  {allow : (Tid → Option Job) → Tid → Job → Prop} {own₀ : κ}
  {A : List (Event (Use COp Call) (Use.Res CRes Call Ret) Tid Job Val) →
    World Op Res Lbl Tid Call Ret σ κ → Roles Tid Job ρ → Prop}

/-- **The users' object goes through a run of its own system.** -/
theorem using_inductive (hP : Awaits P inside) :
    InductiveUnder P (S.use exec body code allow) (.start s₀ own₀) A
      fun _ w R => Using S s₀ inside w R where
  init _ := ⟨.refl, fun _ => rfl⟩
  call {tr w R t id a} _ _ h ht _ _ := by
    refine ⟨h.run, h.update ?_ fun _ _ => rfl⟩
    have hcall := h.call? t
    rw [ht] at hcall
    exact hcall.trans (hP.start a).symm
  op {n tr w R t id a l o x l' w'} _ _ h ht hm he _ := by
    have hcall := h.call? t
    rw [ht] at hcall
    cases o with
    | own o =>
      obtain ⟨s, -, rfl⟩ := he
      exact ⟨h.run, h.update (hcall.trans (hP.own hm).symm) fun _ _ => rfl⟩
    | make a =>
      obtain ⟨c, hs, rfl⟩ := he
      obtain ⟨hself, hother⟩ := hs.call?_call
      exact ⟨h.run.tail hs, h.update (hself.trans (hP.make hm).symm) hother⟩
    | await =>
      obtain ⟨i, a, c, hs, rfl⟩ := he
      obtain ⟨hself, hother⟩ := hs.call?_ret
      exact ⟨h.run.tail hs, h.update (hself.trans (hP.await hm).symm) hother⟩
  ret {n tr w R t id a l v} _ _ h ht hf _ := by
    refine ⟨h.run, h.update ?_ fun _ _ => rfl⟩
    have hcall := h.call? t
    rw [ht] at hcall
    exact hcall.trans (hP.final hf)
  env _ h he _ := by
    obtain ⟨e, c, hs, hin, rfl⟩ := he
    exact ⟨h.run.tail hs, fun u => (hs.call?_inner hin u).trans (h.call? u)⟩

/-- More may be assumed of the situation than is needed. -/
theorem InductiveUnder.under {S : Sys Op Res Lbl Tid Call Ret σ} {s₀ : σ}
    {P : Proto Op Res Lbl Call Ret ρ}
    {A B I : List (Event Op Res Tid Call Ret) → σ → Roles Tid Call ρ → Prop}
    (hI : InductiveUnder P S s₀ A I) (h : ∀ tr s R, B tr s R → A tr s R) :
    InductiveUnder P S s₀ B I where
  init hB := hI.init (h _ _ _ hB)
  call hid hB hi ht ha hB' := hI.call hid (h _ _ _ hB) hi ht ha (h _ _ _ hB')
  op hid hB hi ht hm he hB' := hI.op hid (h _ _ _ hB) hi ht hm he (h _ _ _ hB')
  ret hid hB hi ht hf hB' := hI.ret hid (h _ _ _ hB) hi ht hf (h _ _ _ hB')
  env hB hi he hB' := hI.env (h _ _ _ hB) hi he (h _ _ _ hB')

/-- Layers under a common assumption. -/
theorem InductiveUnder.layer {S : Sys Op Res Lbl Tid Call Ret σ} {s₀ : σ}
    {P : Proto Op Res Lbl Call Ret ρ}
    {A I J : List (Event Op Res Tid Call Ret) → σ → Roles Tid Call ρ → Prop}
    (hI : InductiveUnder P S s₀ A I)
    (hJ : InductiveUnder P S s₀ (fun tr s R => A tr s R ∧ I tr s R) J) :
    InductiveUnder P S s₀ A fun tr s R => I tr s R ∧ J tr s R where
  init hA := ⟨hI.init hA, hJ.init ⟨hA, hI.init hA⟩⟩
  call hid hA h ht ha hA' := by
    have hI' := hI.call hid hA h.1 ht ha hA'
    exact ⟨hI', hJ.call hid ⟨hA, h.1⟩ h.2 ht ha ⟨hA', hI'⟩⟩
  op hid hA h ht hm he hA' := by
    have hI' := hI.op hid hA h.1 ht hm he hA'
    exact ⟨hI', hJ.op hid ⟨hA, h.1⟩ h.2 ht hm he ⟨hA', hI'⟩⟩
  ret hid hA h ht hf hA' := by
    have hI' := hI.ret hid hA h.1 ht hf hA'
    exact ⟨hI', hJ.ret hid ⟨hA, h.1⟩ h.2 ht hf ⟨hA', hI'⟩⟩
  env hA h he hA' := by
    have hI' := hI.env hA h.1 he hA'
    exact ⟨hI', hJ.env ⟨hA, h.1⟩ h.2 he ⟨hA', hI'⟩⟩

theorem InductiveUnder.all {ι : Type} {S : Sys Op Res Lbl Tid Call Ret σ} {s₀ : σ}
    {P : Proto Op Res Lbl Call Ret ρ}
    {A : List (Event Op Res Tid Call Ret) → σ → Roles Tid Call ρ → Prop}
    {I : ι → List (Event Op Res Tid Call Ret) → σ → Roles Tid Call ρ → Prop}
    (h : ∀ i, InductiveUnder P S s₀ A (I i)) :
    InductiveUnder P S s₀ A fun tr s R => ∀ i, I i tr s R where
  init hA i := (h i).init hA
  call hid hA hI ht ha hA' i := (h i).call hid hA (hI i) ht ha hA'
  op hid hA hI ht hm he hA' i := (h i).op hid hA (hI i) ht hm he hA'
  ret hid hA hI ht hf hA' i := (h i).ret hid hA (hI i) ht hf hA'
  env hA hI he hA' i := (h i).env hA (hI i) he hA'

/-! ## A call that nothing interrupts -/

omit [DecidableEq Tid] in
theorem Alone.along {S : Sys Op Res Lbl Tid Call Ret σ} {p : Prog Op Res Lbl Ret} {s s' : σ}
    {ops : List ((o : Op) × Res o)} {v : Ret} (h : Alone S t p s ops v s') :
    Along S t p s ops (.ret v) s' := by
  induction h with
  | ret => exact .refl
  | op he _ ih => exact .op he ih
  | jump _ ih => exact .jump ih

theorem Run.inner {c c' : Config Op Res Lbl Tid Call Ret σ}
    {tr past : List (Event Op Res Tid Call Ret)} {own : κ}
    {th : Tid → Thread (Use COp Call) (Use.Res CRes Call Ret) CLbl Job Val} {n : Nat}
    (h : Run S c tr c') (hin : ∀ e ∈ tr, Inner (some e)) :
    Run (S.use exec body code allow) ⟨⟨c, past, own⟩, th, n⟩ [] ⟨⟨c', past ++ tr, own⟩, th, n⟩ := by
  induction h with
  | refl =>
    rw [List.append_nil]
    exact .refl
  | @tail tr c₁ e c₂ _ hs ih =>
    have hrun := ih fun e he => hin e (List.mem_append_left _ he)
    have he : Inner e := by
      cases e with
      | none => trivial
      | some e => exact hin e (List.mem_append_right _ (List.mem_singleton_self e))
    rw [← List.append_assoc]
    have henv : Use.env S (⟨c₁, past ++ tr, own⟩ : World Op Res Lbl Tid Call Ret σ κ)
        ⟨c₂, (past ++ tr) ++ e.toList, own⟩ := ⟨e, c₂, hs, he, rfl⟩
    exact hrun.trans (Run.single (.env henv))

/-- A call that a user makes and waits for, while nobody else does anything. -/
theorem Run.use {th : Tid → Thread (Use COp Call) (Use.Res CRes Call Ret) CLbl Job Val} {n : Nat}
    {a : Call} {k : Ret → Prog (Use COp Call) (Use.Res CRes Call Ret) CLbl Val}
    {ops : List ((o : Op) × Res o)} {v : Ret} {s : σ}
    (ht : th t = .run id j (.op (.make a) fun _ => .op .await k))
    (hidle : w.object.thread t = .idle)
    (ha : S.allow (fun u => (w.object.thread u).call?) t a)
    (h : Alone S t (S.body a) w.object.shared ops v s) :
    ∃ past, Run (S.use exec body code allow) ⟨w, th, n⟩
      [.op t id j (.make a) (), .op t id j .await v]
      ⟨⟨⟨s, w.object.thread, w.object.fresh + 1⟩, past, w.own⟩,
        Function.update th t (.run id j (k v)), n⟩ := by
  have hcall : Step S w.object (some (.call t w.object.fresh a)) _ := .call hidle ha
  have hmake : Use.exec S exec t (.make a) w () ⟨_, _, w.own⟩ := ⟨_, hcall, rfl⟩
  have h₁ : Run (S.use exec body code allow) ⟨w, th, n⟩ [.op t id j (.make a) ()] _ :=
    Run.single (.op ht hmake)
  have halong : Run S ⟨w.object.shared, Function.update w.object.thread t
      (.run w.object.fresh a (S.body a)), w.object.fresh + 1⟩ (opEvents t w.object.fresh a ops) _ :=
    Run.along h.along (Function.update_self ..) rfl
  have hin : ∀ e ∈ (opEvents t w.object.fresh a ops : List (Event Op Res Tid Call Ret)),
      Inner (some e) := by
    intro e he
    obtain ⟨x, -, rfl⟩ := List.mem_map.1 he
    trivial
  have h₂ := h₁.trans (halong.inner hin)
  rw [Function.update_idem, List.append_nil] at h₂
  have hret : Step S ⟨s, Function.update w.object.thread t (.run w.object.fresh a (.ret v)),
      w.object.fresh + 1⟩ (some (.ret t w.object.fresh a v)) _ := .ret (Function.update_self ..)
  rw [Function.update_idem, ← hidle, Function.update_eq_self] at hret
  have h₃ := h₂.trans (Run.single (.op (Function.update_self ..) ⟨_, _, _, hret, rfl⟩))
  rw [Function.update_idem] at h₃
  exact ⟨_, h₃⟩

/-- A user by itself, from its start to its end, with one call in between. -/
theorem Run.job (th : Tid → Thread (Use COp Call) (Use.Res CRes Call Ret) CLbl Job Val) (n : Nat)
    {a : Call} {k : Ret → Prog (Use COp Call) (Use.Res CRes Call Ret) CLbl Val}
    {ops : List ((o : Op) × Res o)} {v : Ret} {s : σ} {val : Val} {own : κ}
    {ops₁ ops₂ : List ((o : Use COp Call) × Use.Res CRes Call Ret o)}
    (ht : th t = .idle) (hj : allow (fun u => (th u).call?) t j)
    (hbegin : Along (S.use exec body code allow) t (body j) w ops₁
      (.op (.make a) fun _ => .op .await k) w')
    (hidle : w'.object.thread t = .idle)
    (ha : S.allow (fun u => (w'.object.thread u).call?) t a)
    (hcall : Alone S t (S.body a) w'.object.shared ops v s)
    (hend : ∀ w, w.own = w'.own →
      Alone (S.use exec body code allow) t (k v) w ops₂ val { w with own := own }) :
    ∃ past, Run (S.use exec body code allow) ⟨w, th, n⟩
      (.call t n j :: (opEvents t n j (ops₁ ++ [⟨.make a, ()⟩, ⟨.await, v⟩] ++ ops₂) ++
        [.ret t n j val]))
      ⟨⟨⟨s, w'.object.thread, w'.object.fresh + 1⟩, past, own⟩, th, n + 1⟩ := by
  have h₁ := Run.enter (c := ⟨w, th, n⟩) ht hj hbegin
  obtain ⟨past, h₂⟩ : ∃ past, Run (S.use exec body code allow) ⟨w', Function.update th t _, n + 1⟩
      _ _ := Run.use (Function.update_self ..) hidle ha hcall
  have h₃ := Run.finish (hend ⟨⟨s, w'.object.thread, w'.object.fresh + 1⟩, past, w'.own⟩ rfl)
    (c := ⟨_, Function.update th t (.run n j (k v)), n + 1⟩) (Function.update_self ..) rfl
  rw [Function.update_idem] at h₂
  have h := (h₁.trans h₂).trans h₃
  rw [Function.update_idem, ← ht, Function.update_eq_self] at h
  refine ⟨past, ?_⟩
  simpa [opEvents] using h

end Conc
