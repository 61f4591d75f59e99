import RingBuf.Conc.Machine

/-!
# The same programs on another representation of the state

Two systems run the same programs, one on concrete states and one on abstract states. If every
operation that a program may come to (`Prog.All`) does to a concrete state what it does to the
abstract state that it represents, with the same answer, then the concrete system has no history
of its own (`Represents.run`): every theorem about the histories of the abstract system holds of it.
-/

namespace Conc

variable {Op : Type} {Res : Op → Type} {Lbl Tid Call Ret σ τ α β : Type}

/-- Every operation that the program may come to, whatever the answers, is `ok`. -/
def Prog.All (ok : Op → Prop) : Prog Op Res Lbl α → Prop
  | .ret _ => True
  | .op o k => ok o ∧ ∀ x, (k x).All ok
  | .jump _ => True

variable {ok : Op → Prop}

theorem Prog.All.bind {p : Prog Op Res Lbl α} {f : α → Prog Op Res Lbl β} (h : p.All ok)
    (hf : ∀ a, (f a).All ok) : (p >>= f).All ok := by
  induction p with
  | ret a => exact hf a
  | op o k ih => exact ⟨h.1, fun x => ih x (h.2 x)⟩
  | jump l => trivial

/-- The programs of a thread in a call are `ok`. -/
def Thread.All (ok : Op → Prop) : Thread Op Res Lbl Call Ret → Prop
  | .idle => True
  | .run _ _ p => p.All ok

/-- `S` does to the states that represent those of `T` what `T` does, as long as the operations
are `ok`, and all its operations are. What its surroundings do may be nothing to `T`. -/
structure Represents (S : Sys Op Res Lbl Tid Call Ret σ) (T : Sys Op Res Lbl Tid Call Ret τ)
    (ok : Op → Prop) (rep : σ → τ → Prop) : Prop where
  exec : ∀ {t o s x s' m}, ok o → rep s m → S.exec t o s x s' → ∃ m', T.exec t o m x m' ∧ rep s' m'
  env : ∀ {s s' m}, rep s m → S.env s s' → rep s' m ∨ ∃ m', T.env m m' ∧ rep s' m'
  body : ∀ a, S.body a = T.body a
  code : ∀ l, S.code l = T.code l
  allow : ∀ {cur t a}, S.allow cur t a → T.allow cur t a
  all_body : ∀ a, (S.body a).All ok
  all_code : ∀ l, (S.code l).All ok

variable {S : Sys Op Res Lbl Tid Call Ret σ} {T : Sys Op Res Lbl Tid Call Ret τ}
  {rep : σ → τ → Prop}

theorem Represents.ofFun {ex : Tid → (o : Op) → σ → Res o × σ}
    {ex' : Tid → (o : Op) → τ → Res o × τ} {body : Call → Prog Op Res Empty Ret}
    {allow : (Tid → Option Call) → Tid → Call → Prop}
    (h : ∀ {t o s m}, ok o → rep s m →
      (ex t o s).1 = (ex' t o m).1 ∧ rep (ex t o s).2 (ex' t o m).2)
    (hb : ∀ a, (body a).All ok) :
    Represents (Sys.ofFun ex body allow) (Sys.ofFun ex' body allow) ok rep where
  exec := by
    intro t o s x s' m ho hrep hx
    change ex t o s = (x, s') at hx
    obtain ⟨hans, hrep'⟩ := h (t := t) ho hrep
    rw [hx] at hans hrep'
    exact ⟨(ex' t o m).2, Prod.ext hans.symm rfl, hrep'⟩
  env _ h := h.elim
  body _ := rfl
  code _ := rfl
  allow h := h
  all_body := hb
  all_code l := l.elim

variable [DecidableEq Tid] {c c' : Config Op Res Lbl Tid Call Ret σ} {m : τ}
  {tr : List (Event Op Res Tid Call Ret)} {e : Option (Event Op Res Tid Call Ret)}

theorem Thread.all_update {th : Tid → Thread Op Res Lbl Call Ret} {t : Tid}
    {x : Thread Op Res Lbl Call Ret} (h : ∀ u, (th u).All ok) (hx : x.All ok) (u : Tid) :
    (Function.update th t x u).All ok := by
  by_cases hu : u = t
  · rw [hu, Function.update_self]
    exact hx
  · rw [Function.update_of_ne hu]
    exact h u

/-- A step of the concrete system is one of the abstract system, or none. -/
theorem Represents.step (h : Represents S T ok rep) (hc : ∀ u, (c.thread u).All ok)
    (hrep : rep c.shared m) (hs : Step S c e c') :
    ∃ m', Run T ⟨m, c.thread, c.fresh⟩ e.toList ⟨m', c'.thread, c'.fresh⟩ ∧ rep c'.shared m' ∧
      ∀ u, (c'.thread u).All ok := by
  cases hs with
  | @call t a ht ha =>
    refine ⟨m, ?_, hrep, Thread.all_update hc (h.all_body a)⟩
    rw [h.body a]
    exact Run.single (Step.call (S := T) (c := ⟨m, c.thread, c.fresh⟩) ht (h.allow ha))
  | @op t id a o k x s' ht hx =>
    have hall : (Thread.run id a (.op o k)).All ok := ht ▸ hc t
    obtain ⟨ho, hk⟩ := hall
    obtain ⟨m', hx', hrep'⟩ := h.exec ho hrep hx
    exact ⟨m', Run.single (Step.op (S := T) (c := ⟨m, c.thread, c.fresh⟩) ht hx'), hrep',
      Thread.all_update hc (hk x)⟩
  | @jump t id a l ht =>
    refine ⟨m, ?_, hrep, Thread.all_update hc (h.all_code l)⟩
    rw [h.code l]
    exact Run.single (Step.jump (S := T) (c := ⟨m, c.thread, c.fresh⟩) ht)
  | @ret t id a v ht =>
    exact ⟨m, Run.single (Step.ret (S := T) (c := ⟨m, c.thread, c.fresh⟩) ht), hrep,
      Thread.all_update hc trivial⟩
  | @env s' hs =>
    rcases h.env hrep hs with hrep' | ⟨m', hs', hrep'⟩
    · exact ⟨m, .refl, hrep', hc⟩
    · exact ⟨m', Run.single (Step.env (S := T) (c := ⟨m, c.thread, c.fresh⟩) hs'), hrep', hc⟩

/-- So is every step of a run, from wherever the threads are. -/
theorem Represents.steps (h : Represents S T ok rep) (hr : Run S c tr c')
    (hc : ∀ u, (c.thread u).All ok) (hrep : rep c.shared m) :
    ∃ m', Run T ⟨m, c.thread, c.fresh⟩ tr ⟨m', c'.thread, c'.fresh⟩ ∧ rep c'.shared m' ∧
      ∀ u, (c'.thread u).All ok := by
  induction hr with
  | refl => exact ⟨m, .refl, hrep, hc⟩
  | tail _ hs ih =>
    obtain ⟨m₁, hr₁, hrep₁, hall₁⟩ := ih
    obtain ⟨m₂, hs₂, hrep₂, hall₂⟩ := h.step hall₁ hrep₁ hs
    exact ⟨m₂, hr₁.trans hs₂, hrep₂, hall₂⟩

/-- Every history of the concrete system is one of the abstract system. -/
theorem Represents.run {s : σ} (h : Represents S T ok rep) (hrep : rep s m)
    (hr : Run S (.start s) tr c) :
    ∃ m', Run T (.start m) tr ⟨m', c.thread, c.fresh⟩ ∧ rep c.shared m' := by
  obtain ⟨m', hr', hrep', -⟩ := h.steps hr (fun _ => trivial) hrep
  exact ⟨m', hr', hrep'⟩

end Conc
