import RingBuf.Conc.Claims
import Mathlib.Data.List.Forall2

/-!
# Two systems in lockstep

The same threads make the same calls in two systems with different operations and states, say the
program and an idealised version of it. `Match` says which operations, answers and results of the
two count as the same. Two programs are *locked* (`Proto.lock`) when they perform the same
operations as long as they get the same answers and the roles on the way are good ones; the roles
are those of a protocol for the second system.

* `Lockstep`: an assertion about the two states that makes every operation answer the same.
* `Lockstep.forth`, `Lockstep.back`: every run of either system has a run of the other beside it,
  event by event.
-/

namespace Conc

variable {Op Op' : Type} {Res : Op → Type} {Res' : Op' → Type}
  {Lbl Tid Call Ret Ret' σ σ' ρ α β α' β' : Type}

/-- The operations with their answers, and the results of calls, that count as the same. -/
structure Match (Op : Type) (Res : Op → Type) (Op' : Type) (Res' : Op' → Type)
    (Call Ret Ret' : Type) where
  op : (o : Op) → Res o → (o' : Op') → Res' o' → Prop
  ret : Call → Ret → Ret' → Prop

/-- Events that count as the same. -/
inductive Match.Same (M : Match Op Res Op' Res' Call Ret Ret') :
    Event Op Res Tid Call Ret → Event Op' Res' Tid Call Ret' → Prop
  | call {t id a} : M.Same (.call t id a) (.call t id a)
  | op {t id a o r o' r'} : M.op o r o' r' → M.Same (.op t id a o r) (.op t id a o' r')
  | ret {t id a v v'} : M.ret a v v' → M.Same (.ret t id a v) (.ret t id a v')

/-! ## Programs -/

/-- From role `l` on, the two programs perform the same operations, while the roles are good, and
end with `Q`. -/
def Proto.lock (P : Proto Op' Res' Empty Call Ret' ρ) (M : Match Op Res Op' Res' Call Ret Ret')
    (good : ρ → Prop) :
    Prog Op Res Empty α → Prog Op' Res' Empty α' → (ρ → α → α' → Prop) → ρ → Prop
  | .ret a, .ret a', Q, l => Q l a a'
  | .op o k, .op o' k', Q, l => (∀ r', ∃ r, M.op o r o' r') ∧ ∀ r r', M.op o r o' r' →
      ∃ l', P.trans l o' r' l' ∧ (good l' → P.lock M good (k r) (k' r') Q l')
  | _, _, _, _ => False

section Lock

variable {P : Proto Op' Res' Empty Call Ret' ρ} {M : Match Op Res Op' Res' Call Ret Ret'}
  {good : ρ → Prop} {l : ρ}

theorem Proto.lock_op {o : Op} {k : Res o → Prog Op Res Empty α} {o' : Op'}
    {k' : Res' o' → Prog Op' Res' Empty α'} {Q : ρ → α → α' → Prop}
    (hm : ∀ r', ∃ r, M.op o r o' r') (h : ∀ r r', M.op o r o' r' →
      ∃ l', P.trans l o' r' l' ∧ (good l' → P.lock M good (k r) (k' r') Q l')) :
    P.lock M good (.op o k) (.op o' k') Q l :=
  ⟨hm, h⟩

/-- Sequencing: the second programs start where the first ones end. -/
theorem Proto.lock_bind {p : Prog Op Res Empty α} {p' : Prog Op' Res' Empty α'}
    {f : α → Prog Op Res Empty β} {f' : α' → Prog Op' Res' Empty β'} {Q : ρ → β → β' → Prop}
    (h : P.lock M good p p' (fun l' a a' => P.lock M good (f a) (f' a') Q l') l) :
    P.lock M good (p >>= f) (p' >>= f') Q l := by
  induction p generalizing p' l with
  | ret a =>
    cases p' with
    | ret a' => exact h
    | op o' k' => exact h.elim
    | jump j => exact j.elim
  | op o k ih =>
    cases p' with
    | ret a' => exact h.elim
    | op o' k' =>
      refine ⟨h.1, fun r r' hr => ?_⟩
      obtain ⟨l', hm, hk⟩ := h.2 r r' hr
      exact ⟨l', hm, fun hg => ih r (hk hg)⟩
    | jump j => exact j.elim
  | jump j => exact j.elim

end Lock

/-- Two threads, with the role of the second: both idle, or in the same call with locked
programs. -/
inductive Locked (P : Proto Op' Res' Empty Call Ret' ρ)
    (M : Match Op Res Op' Res' Call Ret Ret') (good : ρ → Prop) :
    Thread Op Res Empty Call Ret → Thread Op' Res' Empty Call Ret' → Option (Active Call ρ) → Prop
  | idle : Locked P M good .idle .idle none
  | run {id a p p' l} :
      P.lock M good p p' (fun l v v' => M.ret a v v' ∧ P.final l v') l →
      Locked P M good (.run id a p) (.run id a p') (some ⟨id, a, l⟩)

namespace Locked

variable {P : Proto Op' Res' Empty Call Ret' ρ} {M : Match Op Res Op' Res' Call Ret Ret'}
  {good : ρ → Prop} {th : Thread Op Res Empty Call Ret} {th' : Thread Op' Res' Empty Call Ret'}
  {x : Option (Active Call ρ)} {id : Nat} {a : Call}

theorem call? (h : Locked P M good th th' x) : th.call? = th'.call? := by
  cases h <;> rfl

theorem idle_iff (h : Locked P M good th th' x) : th = .idle ↔ th' = .idle := by
  cases h <;> simp

theorem of_left {p : Prog Op Res Empty Ret} (h : Locked P M good (.run id a p) th' x) :
    ∃ p' l, th' = .run id a p' ∧ x = some ⟨id, a, l⟩ ∧
      P.lock M good p p' (fun l v v' => M.ret a v v' ∧ P.final l v') l := by
  cases h with
  | run h => exact ⟨_, _, rfl, rfl, h⟩

theorem of_right {p' : Prog Op' Res' Empty Ret'} (h : Locked P M good th (.run id a p') x) :
    ∃ p l, th = .run id a p ∧ x = some ⟨id, a, l⟩ ∧
      P.lock M good p p' (fun l v v' => M.ret a v v' ∧ P.final l v') l := by
  cases h with
  | run h => exact ⟨_, _, rfl, rfl, h⟩

theorem role_of_idle (h : Locked P M good .idle th' x) : x = none := by
  cases h
  rfl

end Locked

/-! ## Systems -/

variable [DecidableEq Tid] {P : Proto Op' Res' Empty Call Ret' ρ}
  {M : Match Op Res Op' Res' Call Ret Ret'} {good : ρ → Prop}
  {ex : Tid → (o : Op) → σ → Res o × σ} {ex' : Tid → (o : Op') → σ' → Res' o × σ'}
  {body : Call → Prog Op Res Empty Ret} {body' : Call → Prog Op' Res' Empty Ret'}
  {allow : (Tid → Option Call) → Tid → Call → Prop} {s₀ : σ} {s₀' : σ'}
  {B : List (Event Op' Res' Tid Call Ret') → Prop}
  {J : List (Event Op' Res' Tid Call Ret') → σ → σ' → Roles Tid Call ρ → Prop}

/-- The calls have locked programs, and `J` survives every move of the two systems and makes
their operations answer the same, as long as the history of the second one satisfies `B`. -/
structure Lockstep (P : Proto Op' Res' Empty Call Ret' ρ)
    (M : Match Op Res Op' Res' Call Ret Ret') (good : ρ → Prop)
    (ex : Tid → (o : Op) → σ → Res o × σ) (ex' : Tid → (o : Op') → σ' → Res' o × σ')
    (body : Call → Prog Op Res Empty Ret) (body' : Call → Prog Op' Res' Empty Ret') (s₀ : σ)
    (s₀' : σ') (B : List (Event Op' Res' Tid Call Ret') → Prop)
    (J : List (Event Op' Res' Tid Call Ret') → σ → σ' → Roles Tid Call ρ → Prop) : Prop where
  body : ∀ a, P.lock M good (body a) (body' a) (fun l v v' => M.ret a v v' ∧ P.final l v')
    (P.start a)
  init : J [] s₀ s₀' fun _ => none
  call : ∀ {tr s s' R t id a}, B tr → J tr s s' R → R t = none →
    J (tr ++ [.call t id a]) s s' (Function.update R t (some ⟨id, a, P.start a⟩))
  op : ∀ {tr s s' R t id a l o r o' l'}, B tr → J tr s s' R → R t = some ⟨id, a, l⟩ →
    M.op o r o' (ex' t o' s').1 → P.trans l o' (ex' t o' s').1 l' →
    M.op o (ex t o s).1 o' (ex' t o' s').1 ∧ good l' ∧
      J (tr ++ [.op t id a o' (ex' t o' s').1]) (ex t o s).2 (ex' t o' s').2
        (Function.update R t (some ⟨id, a, l'⟩))
  ret : ∀ {tr s s' R t id a l v'}, B tr → J tr s s' R → R t = some ⟨id, a, l⟩ → P.final l v' →
    J (tr ++ [.ret t id a v']) s s' (Function.update R t none)

/-- Two configurations in lockstep, with the history of the second and its roles. -/
structure Beside (P : Proto Op' Res' Empty Call Ret' ρ)
    (M : Match Op Res Op' Res' Call Ret Ret') (good : ρ → Prop)
    (J : List (Event Op' Res' Tid Call Ret') → σ → σ' → Roles Tid Call ρ → Prop)
    (tr : List (Event Op' Res' Tid Call Ret')) (c : Config Op Res Empty Tid Call Ret σ)
    (c' : Config Op' Res' Empty Tid Call Ret' σ') (R : Roles Tid Call ρ) : Prop where
  fresh : c.fresh = c'.fresh
  thread : ∀ t, Locked P M good (c.thread t) (c'.thread t) (R t)
  state : J tr c.shared c'.shared R

namespace Beside

variable {tr : List (Event Op' Res' Tid Call Ret')} {c c₁ : Config Op Res Empty Tid Call Ret σ}
  {c' c₁' : Config Op' Res' Empty Tid Call Ret' σ'} {R : Roles Tid Call ρ} {t : Tid} {id : Nat}
  {a : Call} {l : ρ}

omit [DecidableEq Tid] in
theorem calls (h : Beside P M good J tr c c' R) :
    (fun u => (c.thread u).call?) = fun u => (c'.thread u).call? := by
  funext u
  exact (h.thread u).call?

theorem update (h : Beside P M good J tr c c' R) {th : Thread Op Res Empty Call Ret}
    {th' : Thread Op' Res' Empty Call Ret'} {x : Option (Active Call ρ)}
    (hx : Locked P M good th th' x) (u : Tid) :
    Locked P M good (Function.update c.thread t th u) (Function.update c'.thread t th' u)
      (Function.update R t x u) := by
  by_cases hu : u = t
  · subst hu
    simpa using hx
  · simpa [hu] using h.thread u

theorem call (hL : Lockstep P M good ex ex' body body' s₀ s₀' B J)
    (h : Beside P M good J tr c c' R) (hB : B tr) (ht : R t = none) :
    ∃ R', Beside P M good J (tr ++ [.call t c'.fresh a])
      ⟨c.shared, Function.update c.thread t (.run c.fresh a (body a)), c.fresh + 1⟩
      ⟨c'.shared, Function.update c'.thread t (.run c'.fresh a (body' a)), c'.fresh + 1⟩ R' := by
  refine ⟨_, congrArg (· + 1) h.fresh, h.update ?_, hL.call hB h.state ht⟩
  rw [h.fresh]
  exact .run (hL.body a)

theorem op (hL : Lockstep P M good ex ex' body body' s₀ s₀' B J)
    (h : Beside P M good J tr c c' R) (hB : B tr) {o : Op} {k : Res o → Prog Op Res Empty Ret}
    {o' : Op'} {k' : Res' o' → Prog Op' Res' Empty Ret'} (ht : R t = some ⟨id, a, l⟩)
    (hl : P.lock M good (.op o k) (.op o' k') (fun l v v' => M.ret a v v' ∧ P.final l v') l) :
    M.op o (ex t o c.shared).1 o' (ex' t o' c'.shared).1 ∧
      ∃ R', Beside P M good J (tr ++ [.op t id a o' (ex' t o' c'.shared).1])
        ⟨(ex t o c.shared).2, Function.update c.thread t (.run id a (k (ex t o c.shared).1)),
          c.fresh⟩
        ⟨(ex' t o' c'.shared).2,
          Function.update c'.thread t (.run id a (k' (ex' t o' c'.shared).1)), c'.fresh⟩ R' := by
  obtain ⟨r, hr⟩ := hl.1 (ex' t o' c'.shared).1
  -- The answer of the second system tells the role; with it the two answers are the same.
  obtain ⟨l₁, hm₁, -⟩ := hl.2 _ _ hr
  obtain ⟨hans, -⟩ := hL.op hB h.state ht hr hm₁
  obtain ⟨l', hm, hk⟩ := hl.2 _ _ hans
  obtain ⟨-, hgood, hJ⟩ := hL.op hB h.state ht hans hm
  exact ⟨hans, _, h.fresh, h.update (.run (hk hgood)), hJ⟩

theorem ret (hL : Lockstep P M good ex ex' body body' s₀ s₀' B J)
    (h : Beside P M good J tr c c' R) (hB : B tr) {v' : Ret'} (ht : R t = some ⟨id, a, l⟩)
    (hfin : P.final l v') :
    ∃ R', Beside P M good J (tr ++ [.ret t id a v'])
      ⟨c.shared, Function.update c.thread t .idle, c.fresh⟩
      ⟨c'.shared, Function.update c'.thread t .idle, c'.fresh⟩ R' :=
  ⟨_, h.fresh, h.update .idle, hL.ret hB h.state ht hfin⟩

/-- A step of the first system is one of the second. -/
theorem forth (hL : Lockstep P M good ex ex' body body' s₀ s₀' B J)
    (h : Beside P M good J tr c c' R) (hB : B tr) {e : Option (Event Op Res Tid Call Ret)}
    (hs : Step (Sys.ofFun ex body allow) c e c₁) :
    ∃ e' c₁' R', Step (Sys.ofFun ex' body' allow) c' e' c₁' ∧
      List.Forall₂ M.Same e.toList e'.toList ∧ Beside P M good J (tr ++ e'.toList) c₁ c₁' R' := by
  cases hs with
  | @call t a ht ha =>
    have hl := h.thread t
    have ht' : c'.thread t = .idle := hl.idle_iff.1 ht
    rw [ht] at hl
    obtain ⟨R', hb⟩ := h.call hL hB (a := a) hl.role_of_idle
    exact ⟨_, _, R', .call ht' (h.calls ▸ ha), h.fresh ▸ .cons .call .nil, hb⟩
  | @op t id a o k r s' ht he =>
    have hl := h.thread t
    rw [ht] at hl
    obtain ⟨p', l, ht', hR, hlock⟩ := hl.of_left
    cases p' with
    | op o' k' =>
      obtain rfl : (ex t o c.shared).1 = r := congrArg Prod.fst he
      obtain rfl : (ex t o c.shared).2 = s' := congrArg Prod.snd he
      obtain ⟨hans, R', hb⟩ := h.op hL hB hR hlock
      exact ⟨_, _, R', .op ht' rfl, .cons (.op hans) .nil, hb⟩
    | ret v' => exact hlock.elim
    | jump j => exact j.elim
  | @jump t id a j ht => exact j.elim
  | @ret t id a v ht =>
    have hl := h.thread t
    rw [ht] at hl
    obtain ⟨p', l, ht', hR, hlock⟩ := hl.of_left
    cases p' with
    | ret v' =>
      obtain ⟨R', hb⟩ := h.ret hL hB hR hlock.2
      exact ⟨_, _, R', .ret ht', .cons (.ret hlock.1) .nil, hb⟩
    | op o' k' => exact hlock.elim
    | jump j => exact j.elim
  | env he => exact he.elim

/-- A step of the second system is one of the first. -/
theorem back (hL : Lockstep P M good ex ex' body body' s₀ s₀' B J)
    (h : Beside P M good J tr c c' R) (hB : B tr) {e' : Option (Event Op' Res' Tid Call Ret')}
    (hs : Step (Sys.ofFun ex' body' allow) c' e' c₁') :
    ∃ e c₁ R', Step (Sys.ofFun ex body allow) c e c₁ ∧
      List.Forall₂ M.Same e.toList e'.toList ∧ Beside P M good J (tr ++ e'.toList) c₁ c₁' R' := by
  cases hs with
  | @call t a ht' ha =>
    have hl := h.thread t
    have ht : c.thread t = .idle := hl.idle_iff.2 ht'
    rw [ht] at hl
    obtain ⟨R', hb⟩ := h.call hL hB (a := a) hl.role_of_idle
    exact ⟨_, _, R', .call ht (h.calls ▸ ha), h.fresh ▸ .cons .call .nil, hb⟩
  | @op t id a o' k' r s' ht' he =>
    have hl := h.thread t
    rw [ht'] at hl
    obtain ⟨p, l, ht, hR, hlock⟩ := hl.of_right
    cases p with
    | op o k =>
      obtain rfl : (ex' t o' c'.shared).1 = r := congrArg Prod.fst he
      obtain rfl : (ex' t o' c'.shared).2 = s' := congrArg Prod.snd he
      obtain ⟨hans, R', hb⟩ := h.op hL hB hR hlock
      exact ⟨_, _, R', .op ht rfl, .cons (.op hans) .nil, hb⟩
    | ret v => exact hlock.elim
    | jump j => exact j.elim
  | @jump t id a j ht => exact j.elim
  | @ret t id a v' ht' =>
    have hl := h.thread t
    rw [ht'] at hl
    obtain ⟨p, l, ht, hR, hlock⟩ := hl.of_right
    cases p with
    | ret v =>
      obtain ⟨R', hb⟩ := h.ret hL hB hR hlock.2
      exact ⟨_, _, R', .ret ht, .cons (.ret hlock.1) .nil, hb⟩
    | op o k => exact hlock.elim
    | jump j => exact j.elim
  | env he => exact he.elim

end Beside

namespace Lockstep

variable {tr : List (Event Op Res Tid Call Ret)} {tr' : List (Event Op' Res' Tid Call Ret')}
  {c : Config Op Res Empty Tid Call Ret σ} {c' : Config Op' Res' Empty Tid Call Ret' σ'}

theorem start (hL : Lockstep P M good ex ex' body body' s₀ s₀' B J) :
    Beside P M good J [] (.start s₀) (.start s₀') fun _ => none :=
  ⟨rfl, fun _ => .idle, hL.init⟩

/-- **Every run of the first system has a run of the second beside it.** -/
theorem forth (hL : Lockstep P M good ex ex' body body' s₀ s₀' B J)
    (hB : ∀ tr₁ tr₂ tr₁', tr = tr₁ ++ tr₂ → List.Forall₂ M.Same tr₁ tr₁' → B tr₁')
    (h : Run (Sys.ofFun ex body allow) (.start s₀) tr c) :
    ∃ tr' c' R, Run (Sys.ofFun ex' body' allow) (.start s₀') tr' c' ∧
      List.Forall₂ M.Same tr tr' ∧ Beside P M good J tr' c c' R := by
  induction h with
  | refl => exact ⟨[], _, _, .refl, .nil, hL.start⟩
  | @tail tr c e c₁ _ hs ih =>
    obtain ⟨tr', c', R, hrun, htr, hb⟩ := ih fun tr₁ tr₂ tr₁' he =>
      hB tr₁ (tr₂ ++ e.toList) tr₁' (by rw [he, List.append_assoc])
    obtain ⟨e', c₁', R', hs', he, hb'⟩ := hb.forth hL (hB tr e.toList tr' rfl htr) hs
    exact ⟨_, c₁', R', hrun.tail hs', List.rel_append htr he, hb'⟩

/-- **Every run of the second system has a run of the first beside it.** -/
theorem back (hL : Lockstep P M good ex ex' body body' s₀ s₀' B J)
    (hB : ∀ tr₁ tr₂, tr' = tr₁ ++ tr₂ → B tr₁)
    (h : Run (Sys.ofFun ex' body' allow) (.start s₀') tr' c') :
    ∃ tr c R, Run (Sys.ofFun ex body allow) (.start s₀) tr c ∧
      List.Forall₂ M.Same tr tr' ∧ Beside P M good J tr' c c' R := by
  induction h with
  | refl => exact ⟨[], _, _, .refl, .nil, hL.start⟩
  | @tail tr' c' e' c₁' _ hs ih =>
    obtain ⟨tr, c, R, hrun, htr, hb⟩ := ih fun tr₁ tr₂ he =>
      hB tr₁ (tr₂ ++ e'.toList) (by rw [he, List.append_assoc])
    obtain ⟨e, c₁, R', hs', he, hb'⟩ := hb.back hL (hB tr' e'.toList rfl) hs
    exact ⟨_, c₁, R', hrun.tail hs', List.rel_append htr he, hb'⟩

end Lockstep

/-! ## Calm runs -/

section Calm

variable {π π' : Type} {take : (o : Op) → Res o → Option π} {take' : (o : Op') → Res' o → Option π'}
  {tr : List (Event Op Res Tid Call Ret)} {tr' : List (Event Op' Res' Tid Call Ret')} {n : Nat}

omit [DecidableEq Tid] in
/-- A part of the second history has its part of the first. -/
theorem Match.split_right {tr₁' tr₂' : List (Event Op' Res' Tid Call Ret')}
    (h : List.Forall₂ M.Same tr (tr₁' ++ tr₂')) :
    ∃ tr₁ tr₂, tr = tr₁ ++ tr₂ ∧ List.Forall₂ M.Same tr₁ tr₁' ∧ List.Forall₂ M.Same tr₂ tr₂' :=
  ⟨_, _, (List.take_append_drop tr₁'.length tr).symm, List.forall₂_take_append _ _ _ h,
    List.forall₂_drop_append _ _ _ h⟩

/-- The same operations take the same, so the other threads claim as much. -/
theorem Match.others_eq
    (hM : ∀ o r o' r', M.op o r o' r' → (take o r).isSome = (take' o' r').isSome)
    (h : List.Forall₂ M.Same tr tr') (t : Tid) : others take t tr = others take' t tr' := by
  induction h with
  | nil => rfl
  | @cons e e' tr tr' he _ ih =>
    have hhead : others take t [e] = others take' t [e'] := by
      cases he with
      | call => rfl
      | ret _ => rfl
      | @op u id a o r o' r' ho =>
        have hsome := hM o r o' r' ho
        cases hr : take o r <;> cases hr' : take' o' r' <;>
          simp_all [others, claims, Event.claim?]
    rw [← List.singleton_append, ← List.singleton_append (l := tr'), others, claims_append,
      List.countP_append, others, claims_append, List.countP_append]
    exact congrArg₂ (· + ·) hhead ih

omit [DecidableEq Tid] in
theorem Match.ret_mem (h : List.Forall₂ M.Same tr tr') {t : Tid} {id : Nat} {a : Call} {v : Ret}
    (hv : .ret t id a v ∈ tr) : ∃ v', .ret t id a v' ∈ tr' := by
  induction h with
  | nil => cases hv
  | @cons e e' tr tr' he _ ih =>
    rcases List.mem_cons.1 hv with rfl | hv
    · cases he with
      | ret _ => exact ⟨_, List.mem_cons_self ..⟩
    · obtain ⟨v', hv'⟩ := ih hv
      exact ⟨v', List.mem_cons_of_mem _ hv'⟩

theorem Calm.same (hM : ∀ o r o' r', M.op o r o' r' → (take o r).isSome = (take' o' r').isSome)
    (h : List.Forall₂ M.Same tr tr') (hc : Calm take n tr) : Calm take' n tr' := by
  intro tr₁' t id a tr₂' tr₃' htr' hret
  subst htr'
  obtain ⟨tr₁, trr, rfl, -, hr⟩ := Match.split_right h
  cases hr with
  | @cons e _ tr₂₃ _ he hr =>
    cases he with
    | call =>
      obtain ⟨tr₂, tr₃, rfl, h₂, -⟩ := Match.split_right hr
      rw [← Match.others_eq hM h₂ t]
      refine hc tr₁ t id a tr₂ tr₃ rfl fun v hv => ?_
      obtain ⟨v', hv'⟩ := Match.ret_mem h₂ hv
      exact hret v' hv'

end Calm

end Conc
