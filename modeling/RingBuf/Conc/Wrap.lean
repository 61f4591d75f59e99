import RingBuf.Conc.Claims
import Mathlib.Data.List.Forall2

/-!
# Wrapped calls

A wrapper around the calls of a system: a call `w` of the wrapper makes the call `inner w` of the
system and passes its result through `post w`, which touches nothing shared. A run of the wrapper
is a run of the system, event by event (`Run.unwrap`), so what is known of the runs of the system
is known of those of the wrapper.
-/

namespace Conc

variable {Op : Type} {Res : Op → Type} {Lbl Tid W Call Ret Out σ α β : Type}

/-- Program `p` with its result passed through `f`; its labels are kept under `w`. -/
def Prog.under (w : W) (f : α → β) : Prog Op Res Lbl α → Prog Op Res (W × Lbl) β
  | .ret a => .ret (f a)
  | .op o k => .op o fun r => (k r).under w f
  | .jump l => .jump (w, l)

/-- The wrapper of a system. -/
def Sys.wrap (S : Sys Op Res Lbl Tid Call Ret σ) (inner : W → Call) (post : W → Ret → Out) :
    Sys Op Res (W × Lbl) Tid W Out σ where
  exec := S.exec
  env := S.env
  body w := (S.body (inner w)).under w (post w)
  code j := (S.code j.2).under j.1 (post j.1)
  allow cur t w := S.allow (fun u => (cur u).map inner) t (inner w)

/-- An event of the wrapper, and the event of the system behind it. -/
inductive Wraps (inner : W → Call) (post : W → Ret → Out) :
    Event Op Res Tid W Out → Event Op Res Tid Call Ret → Prop
  | call {t id w} : Wraps inner post (.call t id w) (.call t id (inner w))
  | op {t id w o r} : Wraps inner post (.op t id w o r) (.op t id (inner w) o r)
  | ret {t id w v} : Wraps inner post (.ret t id w (post w v)) (.ret t id (inner w) v)

/-- A thread of the wrapper, and the thread of the system behind it. -/
inductive WrapsThread (inner : W → Call) (post : W → Ret → Out) :
    Thread Op Res (W × Lbl) W Out → Thread Op Res Lbl Call Ret → Prop
  | idle : WrapsThread inner post .idle .idle
  | run {id w p} : WrapsThread inner post (.run id w (p.under w (post w))) (.run id (inner w) p)

variable {S : Sys Op Res Lbl Tid Call Ret σ} {inner : W → Call} {post : W → Ret → Out}

theorem WrapsThread.call? {x : Thread Op Res (W × Lbl) W Out} {y : Thread Op Res Lbl Call Ret}
    (h : WrapsThread inner post x y) : y.call? = x.call?.map inner := by
  cases h <;> rfl

theorem WrapsThread.of_idle {y : Thread Op Res Lbl Call Ret}
    (h : WrapsThread inner post .idle y) : y = .idle := by
  cases h
  rfl

theorem WrapsThread.of_run {id : Nat} {w : W} {q : Prog Op Res (W × Lbl) Out}
    {y : Thread Op Res Lbl Call Ret} (h : WrapsThread inner post (.run id w q) y) :
    ∃ p, y = .run id (inner w) p ∧ q = p.under w (post w) := by
  cases h with
  | run => exact ⟨_, rfl, rfl⟩

/-! ## Runs -/

variable [DecidableEq Tid]

theorem WrapsThread.update {th : Tid → Thread Op Res (W × Lbl) W Out}
    {th' : Tid → Thread Op Res Lbl Call Ret} (h : ∀ u, WrapsThread inner post (th u) (th' u))
    {t : Tid} {x : Thread Op Res (W × Lbl) W Out} {y : Thread Op Res Lbl Call Ret}
    (hxy : WrapsThread inner post x y) (u : Tid) :
    WrapsThread inner post (Function.update th t x u) (Function.update th' t y u) := by
  by_cases hu : u = t
  · subst hu
    simpa using hxy
  · simpa [hu] using h u

/-- A step of the wrapper is a step of the system. -/
theorem Step.unwrap {c c' : Config Op Res (W × Lbl) Tid W Out σ}
    {e : Option (Event Op Res Tid W Out)} (hs : Step (S.wrap inner post) c e c')
    {d : Config Op Res Lbl Tid Call Ret σ} (hshared : d.shared = c.shared)
    (hfresh : d.fresh = c.fresh) (hth : ∀ u, WrapsThread inner post (c.thread u) (d.thread u)) :
    ∃ e' d', Step S d e' d' ∧ List.Forall₂ (Wraps inner post) e.toList e'.toList ∧
      d'.shared = c'.shared ∧ d'.fresh = c'.fresh ∧
      ∀ u, WrapsThread inner post (c'.thread u) (d'.thread u) := by
  obtain ⟨s, th, n⟩ := d
  obtain rfl : s = c.shared := hshared
  obtain rfl : n = c.fresh := hfresh
  cases hs with
  | @call t w ht ha =>
    have hidle : th t = .idle := (ht ▸ hth t : WrapsThread inner post .idle (th t)).of_idle
    have ha' : S.allow (fun u => (th u).call?) t (inner w) := by
      have hcalls : (fun u => (th u).call?) = fun u => (c.thread u).call?.map inner := by
        funext u
        exact (hth u).call?
      rw [hcalls]
      exact ha
    exact ⟨_, _, .call hidle ha', .cons .call .nil, rfl, rfl, WrapsThread.update hth .run⟩
  | @op t id w o k r s' ht he =>
    obtain ⟨p, hp, hk⟩ :=
      (ht ▸ hth t : WrapsThread inner post (.run id w (.op o k)) (th t)).of_run
    cases p with
    | op o' k' =>
      cases hk
      exact ⟨_, _, .op hp he, .cons .op .nil, rfl, rfl, WrapsThread.update hth .run⟩
    | ret v => cases hk
    | jump l => cases hk
  | @jump t id w l ht =>
    obtain ⟨p, hp, hk⟩ :=
      (ht ▸ hth t : WrapsThread inner post (.run id w (.jump l)) (th t)).of_run
    cases p with
    | jump l' =>
      cases hk
      exact ⟨_, _, .jump hp, .nil, rfl, rfl, WrapsThread.update hth .run⟩
    | ret v => cases hk
    | op o' k' => cases hk
  | @ret t id w v ht =>
    obtain ⟨p, hp, hk⟩ :=
      (ht ▸ hth t : WrapsThread inner post (.run id w (.ret v)) (th t)).of_run
    cases p with
    | ret v' =>
      cases hk
      exact ⟨_, _, .ret hp, .cons .ret .nil, rfl, rfl, WrapsThread.update hth .idle⟩
    | op o' k' => cases hk
    | jump l => cases hk
  | env he => exact ⟨_, _, .env he, .nil, rfl, rfl, hth⟩

/-- **A run of the wrapper is a run of the system**, event by event. -/
theorem Run.unwrap {s : σ} {tr : List (Event Op Res Tid W Out)}
    {c : Config Op Res (W × Lbl) Tid W Out σ} (h : Run (S.wrap inner post) (.start s) tr c) :
    ∃ tr' d, Run S (.start s) tr' d ∧ List.Forall₂ (Wraps inner post) tr tr' ∧
      d.shared = c.shared ∧ d.fresh = c.fresh ∧
      ∀ u, WrapsThread inner post (c.thread u) (d.thread u) := by
  induction h with
  | refl => exact ⟨[], _, .refl, .nil, rfl, rfl, fun _ => .idle⟩
  | tail _ hs ih =>
    obtain ⟨tr', d, hrun, htr, hshared, hfresh, hth⟩ := ih
    obtain ⟨e', d', hs', he, hshared', hfresh', hth'⟩ := hs.unwrap hshared hfresh hth
    exact ⟨_, d', hrun.tail hs', List.rel_append htr he, hshared', hfresh', hth'⟩

/-- What a call of the wrapper returns is what the call behind it returned, passed on. -/
theorem Run.unwrap_ret {s : σ} {tr₁ tr₂ : List (Event Op Res Tid W Out)} {t : Tid} {id : Nat}
    {w : W} {out : Out} {c : Config Op Res (W × Lbl) Tid W Out σ}
    (h : Run (S.wrap inner post) (.start s) (tr₁ ++ .ret t id w out :: tr₂) c) :
    ∃ tr₁' v d, Run S (.start s) (tr₁' ++ [.ret t id (inner w) v]) d ∧
      List.Forall₂ (Wraps inner post) tr₁ tr₁' ∧ out = post w v := by
  obtain ⟨c₁, c₂, h₁, hs, -⟩ := h.split rfl
  obtain ⟨tr₁', d, hrun, htr, hshared, hfresh, hth⟩ := h₁.unwrap
  obtain ⟨e', d', hs', he, -⟩ := hs.unwrap hshared hfresh hth
  cases e' with
  | none => cases he
  | some e' =>
    cases he with
    | cons he _ =>
      cases he with
      | ret => exact ⟨tr₁', _, d', hrun.tail hs', htr, rfl⟩

omit [DecidableEq Tid] in
theorem Alone.wrap {t : Tid} {w : W} {p : Prog Op Res Lbl Ret} {s s' : σ}
    {ops : List ((o : Op) × Res o)} {v : Ret} (h : Alone S t p s ops v s') :
    Alone (S.wrap inner post) t (p.under w (post w)) s ops (post w v) s' := by
  induction h with
  | ret => exact .ret
  | op he _ ih => exact .op he ih
  | jump _ ih => exact .jump ih

omit [DecidableEq Tid] in
theorem Alone.unwrap {t : Tid} {w : W} {q : Prog Op Res (W × Lbl) Out} {s s' : σ}
    {ops : List ((o : Op) × Res o)} {out : Out}
    (h : Alone (S.wrap inner post) t q s ops out s') :
    ∀ {p : Prog Op Res Lbl Ret}, q = p.under w (post w) →
      ∃ v, Alone S t p s ops v s' ∧ out = post w v := by
  induction h with
  | ret =>
    intro p hp
    cases p with
    | ret v =>
      cases hp
      exact ⟨v, .ret, rfl⟩
    | op o k => cases hp
    | jump l => cases hp
  | op he _ ih =>
    intro p hp
    cases p with
    | op o k =>
      cases hp
      obtain ⟨v, hv, hout⟩ := ih rfl
      exact ⟨v, .op he hv, hout⟩
    | ret v => cases hp
    | jump l => cases hp
  | jump _ ih =>
    intro p hp
    cases p with
    | jump l =>
      cases hp
      obtain ⟨v, hv, hout⟩ := ih rfl
      exact ⟨v, .jump hv, hout⟩
    | ret v => cases hp
    | op o k => cases hp

omit [DecidableEq Tid] in
/-- What a wrapped call alone returns is what the call alone returns, passed on. -/
theorem alone_wrap_iff {t : Tid} {w : W} {p : Prog Op Res Lbl Ret} {s s' : σ}
    {ops : List ((o : Op) × Res o)} {out : Out} :
    Alone (S.wrap inner post) t (p.under w (post w)) s ops out s' ↔
      ∃ v, Alone S t p s ops v s' ∧ out = post w v := by
  constructor
  · intro h
    exact h.unwrap rfl
  · rintro ⟨v, h, rfl⟩
    exact h.wrap

/-! ## Claims -/

/-- A claim of the wrapper, as one of the system. -/
def Claim.unwrap {π : Type} (inner : W → Call) (c : Claim Tid W π) : Claim Tid Call π :=
  ⟨c.thread, c.id, inner c.call, c.pos⟩

omit [DecidableEq Tid] in
theorem claims_unwrap {π : Type} {take : (o : Op) → Res o → Option π}
    {tr : List (Event Op Res Tid W Out)} {tr' : List (Event Op Res Tid Call Ret)}
    (h : List.Forall₂ (Wraps inner post) tr tr') :
    claims take tr' = (claims take tr).map (Claim.unwrap inner) := by
  induction h with
  | nil => rfl
  | @cons e e' tr tr' he _ ih =>
    have hhead : e'.claim? take = (e.claim? take).map (Claim.unwrap inner) := by
      cases he with
      | op => simp [Event.claim?, Claim.unwrap, Function.comp_def]
      | _ => rfl
    rw [claims, List.filterMap_cons, hhead, claims, List.filterMap_cons]
    cases e.claim? take with
    | none => exact ih
    | some c => exact congrArg (_ :: ·) ih

end Conc
