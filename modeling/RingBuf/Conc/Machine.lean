import RingBuf.Conc.Prog

/-!
# Interleaving machines

A system (`Sys`) fixes what each operation does to the shared state, the program of each call a
thread may make, and which calls a thread may start. Its configurations hold the shared state
and, for every thread, the call in progress with what is left of its program. A step lets one
thread start a call, perform its next operation or return; the steps of different threads
interleave in every possible order.

A run records the events it goes through. Every call gets an identifier of its own, so a history
can say which operations and which result belong to one call; the identifier is not visible to
the programs.

* `Run.split`: a run passes through a configuration at each of its events.
* `Run.alone`: a call that nothing interrupts is a run.
-/

namespace Conc

/-- A visible step: thread `t` starts call `c` under identifier `id`, performs one of its
operations, or returns from it. -/
inductive Event (Op : Type) (Res : Op → Type) (Tid Call Ret : Type)
  | call (t : Tid) (id : Nat) (c : Call)
  | op (t : Tid) (id : Nat) (c : Call) (o : Op) (r : Res o)
  | ret (t : Tid) (id : Nat) (c : Call) (v : Ret)

/-- The identifier of the call an event belongs to. -/
@[simp] def Event.id {Op : Type} {Res : Op → Type} {Tid Call Ret : Type} :
    Event Op Res Tid Call Ret → Nat
  | .call _ id _ | .op _ id _ _ _ | .ret _ id _ _ => id

/-- What a system of threads is made of. -/
structure Sys (Op : Type) (Res : Op → Type) (Lbl Tid Call Ret σ : Type) where
  /-- `exec t o s r s'`: operation `o` of thread `t` may answer `r` and leave `s'`. -/
  exec : Tid → (o : Op) → σ → Res o → σ → Prop
  /-- What the surroundings may do to the state between two operations. -/
  env : σ → σ → Prop
  /-- The program of a call. -/
  body : Call → Prog Op Res Lbl Ret
  /-- The code behind a label. -/
  code : Lbl → Prog Op Res Lbl Ret
  /-- Whether an idle thread may start a call, given the calls in progress. -/
  allow : (Tid → Option Call) → Tid → Call → Prop

/-- A thread: idle, or inside a call with the rest of its program. -/
inductive Thread (Op : Type) (Res : Op → Type) (Lbl Call Ret : Type)
  | idle
  | run (id : Nat) (c : Call) (p : Prog Op Res Lbl Ret)

/-- The call a thread is in. -/
def Thread.call? {Op : Type} {Res : Op → Type} {Lbl Call Ret : Type} :
    Thread Op Res Lbl Call Ret → Option Call
  | .idle => none
  | .run _ c _ => some c

/-- A configuration: the shared state, the threads, and the next unused call identifier. -/
@[ext] structure Config (Op : Type) (Res : Op → Type) (Lbl Tid Call Ret σ : Type) where
  shared : σ
  thread : Tid → Thread Op Res Lbl Call Ret
  fresh : Nat

variable {Op : Type} {Res : Op → Type} {Lbl Tid Call Ret σ : Type} [DecidableEq Tid]

/-- All threads idle, and no call made so far. -/
def Config.start (s : σ) : Config Op Res Lbl Tid Call Ret σ := ⟨s, fun _ => .idle, 0⟩

/-- One step of the system, with the event it shows (jumps and the surroundings show none). -/
inductive Step (S : Sys Op Res Lbl Tid Call Ret σ) : Config Op Res Lbl Tid Call Ret σ →
    Option (Event Op Res Tid Call Ret) → Config Op Res Lbl Tid Call Ret σ → Prop
  | call {c t a} : c.thread t = .idle → S.allow (fun u => (c.thread u).call?) t a →
      Step S c (some (.call t c.fresh a))
        ⟨c.shared, Function.update c.thread t (.run c.fresh a (S.body a)), c.fresh + 1⟩
  | op {c t id a o k r s'} : c.thread t = .run id a (.op o k) → S.exec t o c.shared r s' →
      Step S c (some (.op t id a o r))
        ⟨s', Function.update c.thread t (.run id a (k r)), c.fresh⟩
  | jump {c t id a l} : c.thread t = .run id a (.jump l) →
      Step S c none ⟨c.shared, Function.update c.thread t (.run id a (S.code l)), c.fresh⟩
  | ret {c t id a v} : c.thread t = .run id a (.ret v) →
      Step S c (some (.ret t id a v)) ⟨c.shared, Function.update c.thread t .idle, c.fresh⟩
  | env {c s'} : S.env c.shared s' → Step S c none ⟨s', c.thread, c.fresh⟩

/-- The runs from `c₀`, with their events. -/
inductive Run (S : Sys Op Res Lbl Tid Call Ret σ) (c₀ : Config Op Res Lbl Tid Call Ret σ) :
    List (Event Op Res Tid Call Ret) → Config Op Res Lbl Tid Call Ret σ → Prop
  | refl : Run S c₀ [] c₀
  | tail {tr c e c'} : Run S c₀ tr c → Step S c e c' → Run S c₀ (tr ++ e.toList) c'

variable {S : Sys Op Res Lbl Tid Call Ret σ} {c₀ c c' c₁ : Config Op Res Lbl Tid Call Ret σ}
  {tr tr₁ tr₂ : List (Event Op Res Tid Call Ret)}

theorem Run.single {e : Option (Event Op Res Tid Call Ret)} (h : Step S c e c') :
    Run S c e.toList c' := by
  simpa using Run.tail (.refl (S := S)) h

theorem Run.trans (h₁ : Run S c₀ tr₁ c) (h₂ : Run S c tr₂ c') : Run S c₀ (tr₁ ++ tr₂) c' := by
  induction h₂ with
  | refl => simpa using h₁
  | tail _ hs ih => rw [← List.append_assoc]; exact ih.tail hs

/-- A run is in some configuration just before, and in some configuration just after, each of
its events. -/
theorem Run.split (h : Run S c₀ tr c) : ∀ {tr₁ e tr₂}, tr = tr₁ ++ e :: tr₂ →
    ∃ c₁ c₂, Run S c₀ tr₁ c₁ ∧ Step S c₁ (some e) c₂ ∧ Run S c₂ tr₂ c := by
  induction h with
  | refl => intro tr₁ e tr₂ he; simp at he
  | @tail tr c e' c' hr hs ih =>
    intro tr₁ e tr₂ he
    cases e' with
    | none =>
      obtain ⟨c₁, c₂, h₁, h₂, h₃⟩ := ih (by simpa using he)
      exact ⟨c₁, c₂, h₁, h₂, by simpa using h₃.tail hs⟩
    | some e' =>
      rcases List.eq_nil_or_concat tr₂ with rfl | ⟨tr₂, e₂, rfl⟩
      · obtain ⟨rfl, he⟩ := List.append_inj' he rfl
        obtain rfl : e' = e := by simpa using he
        exact ⟨c, c', hr, hs, .refl⟩
      · have he' : tr ++ [e'] = (tr₁ ++ e :: tr₂) ++ [e₂] := by simpa using he
        obtain ⟨rfl, he₂⟩ := List.append_inj' he' rfl
        obtain rfl : e' = e₂ := by simpa using he₂
        obtain ⟨c₁, c₂, h₁, h₂, h₃⟩ := ih rfl
        exact ⟨c₁, c₂, h₁, h₂, by simpa using h₃.tail hs⟩

/-- The prefix of a run's events is the history of a run. -/
theorem Run.cut (h : Run S c₀ (tr₁ ++ tr₂) c) : ∃ c₁, Run S c₀ tr₁ c₁ ∧ Run S c₁ tr₂ c := by
  cases tr₂ with
  | nil => exact ⟨c, by simpa using h, .refl⟩
  | cons e tr₂ =>
    obtain ⟨c₁, c₂, h₁, h₂, h₃⟩ := h.split rfl
    exact ⟨c₁, h₁, by simpa using (Run.single h₂).trans h₃⟩

/-! ## A call that nothing interrupts -/

/-- Thread `t` alone takes program `p` from `s` through the listed operations to the value `v`
in `s'`. -/
inductive Alone (S : Sys Op Res Lbl Tid Call Ret σ) (t : Tid) :
    Prog Op Res Lbl Ret → σ → List ((o : Op) × Res o) → Ret → σ → Prop
  | ret {v s} : Alone S t (.ret v) s [] v s
  | op {o k s r s' ops v s''} : S.exec t o s r s' → Alone S t (k r) s' ops v s'' →
      Alone S t (.op o k) s (⟨o, r⟩ :: ops) v s''
  | jump {l s ops v s'} : Alone S t (S.code l) s ops v s' → Alone S t (.jump l) s ops v s'

/-- The operation events of one call. -/
def opEvents (t : Tid) (id : Nat) (a : Call) (ops : List ((o : Op) × Res o)) :
    List (Event Op Res Tid Call Ret) :=
  ops.map fun x => .op t id a x.1 x.2

theorem Run.finish {t : Tid} {id : Nat} {a : Call} {p : Prog Op Res Lbl Ret} {s s' : σ}
    {ops : List ((o : Op) × Res o)} {v : Ret} (h : Alone S t p s ops v s') :
    ∀ {c : Config Op Res Lbl Tid Call Ret σ}, c.thread t = .run id a p → c.shared = s →
      Run S c (opEvents t id a ops ++ [.ret t id a v])
        ⟨s', Function.update c.thread t .idle, c.fresh⟩ := by
  induction h with
  | ret =>
    rintro c ht rfl
    exact Run.single (.ret ht)
  | op he _ ih =>
    rintro c ht rfl
    have h₁ := Run.single (Step.op ht he)
    have h₂ := h₁.trans (ih (Function.update_self ..) rfl)
    simpa [opEvents] using h₂
  | jump _ ih =>
    rintro c ht rfl
    have h₁ := Run.single (Step.jump (S := S) ht)
    have h₂ := h₁.trans (ih (Function.update_self ..) rfl)
    simpa using h₂

/-- An idle thread makes a call and runs it to its end. -/
theorem Run.alone {t : Tid} {a : Call} {s' : σ} {ops : List ((o : Op) × Res o)} {v : Ret}
    (ht : c.thread t = .idle) (ha : S.allow (fun u => (c.thread u).call?) t a)
    (h : Alone S t (S.body a) c.shared ops v s') :
    Run S c (.call t c.fresh a :: (opEvents t c.fresh a ops ++ [.ret t c.fresh a v]))
      ⟨s', c.thread, c.fresh + 1⟩ := by
  have h₁ := Run.single (Step.call ht ha)
  have h₂ := h₁.trans (Run.finish h (Function.update_self ..) rfl)
  have h₃ : Function.update c.thread t .idle = c.thread := by rw [← ht, Function.update_eq_self]
  simpa [h₃] using h₂

/-- Thread `t` alone takes program `p` from `s` through the listed operations as far as `p'`
in `s'`. -/
inductive Along (S : Sys Op Res Lbl Tid Call Ret σ) (t : Tid) : Prog Op Res Lbl Ret → σ →
    List ((o : Op) × Res o) → Prog Op Res Lbl Ret → σ → Prop
  | refl {p s} : Along S t p s [] p s
  | op {o k s r s' ops p' s''} : S.exec t o s r s' → Along S t (k r) s' ops p' s'' →
      Along S t (.op o k) s (⟨o, r⟩ :: ops) p' s''
  | jump {l s ops p' s'} : Along S t (S.code l) s ops p' s' → Along S t (.jump l) s ops p' s'

theorem Run.along {t : Tid} {id : Nat} {a : Call} {p p' : Prog Op Res Lbl Ret} {s s' : σ}
    {ops : List ((o : Op) × Res o)} (h : Along S t p s ops p' s') :
    ∀ {c : Config Op Res Lbl Tid Call Ret σ}, c.thread t = .run id a p → c.shared = s →
      Run S c (opEvents t id a ops) ⟨s', Function.update c.thread t (.run id a p'), c.fresh⟩ := by
  induction h with
  | refl =>
    rintro c ht rfl
    rw [← ht, Function.update_eq_self]
    exact .refl
  | op he _ ih =>
    rintro c ht rfl
    have h₁ := Run.single (Step.op ht he)
    have h₂ := h₁.trans (ih (Function.update_self ..) rfl)
    simpa [opEvents] using h₂
  | jump _ ih =>
    rintro c ht rfl
    have h₁ := Run.single (Step.jump (S := S) ht)
    have h₂ := h₁.trans (ih (Function.update_self ..) rfl)
    simpa using h₂

theorem Run.enter {t : Tid} {a : Call} {p : Prog Op Res Lbl Ret} {s' : σ}
    {ops : List ((o : Op) × Res o)} (ht : c.thread t = .idle)
    (ha : S.allow (fun u => (c.thread u).call?) t a) (h : Along S t (S.body a) c.shared ops p s') :
    Run S c (.call t c.fresh a :: opEvents t c.fresh a ops)
      ⟨s', Function.update c.thread t (.run c.fresh a p), c.fresh + 1⟩ := by
  have h₁ := Run.single (Step.call ht ha)
  have h₂ := h₁.trans (Run.along h (Function.update_self ..) rfl)
  rw [Function.update_idem] at h₂
  exact h₂

/-- What one round does, any number of rounds do. `Q j` is what is known of the events of `j`
rounds. -/
theorem Run.rounds {J : Nat → σ → Prop} {Q : Nat → List (Event Op Res Tid Call Ret) → Prop}
    {th : Tid → Thread Op Res Lbl Call Ret} {d : Nat} (hnil : Q 0 [])
    (happ : ∀ i tr tr', Q i tr → Q 1 tr' → Q (i + 1) (tr ++ tr'))
    (hround : ∀ n s k, J n s →
      ∃ tr s', Run S ⟨s, th, k⟩ tr ⟨s', th, k + d⟩ ∧ J (n + 1) s' ∧ Q 1 tr)
    (j : Nat) {n k : Nat} {s : σ} (h : J n s) :
    ∃ tr s', Run S ⟨s, th, k⟩ tr ⟨s', th, k + d * j⟩ ∧ J (n + j) s' ∧ Q j tr := by
  induction j with
  | zero => exact ⟨[], s, .refl, h, hnil⟩
  | succ j ih =>
    obtain ⟨tr, s', hrun, h', hq⟩ := ih
    obtain ⟨tr', s'', hrun', h'', hq'⟩ := hround _ _ (k + d * j) h'
    rw [Nat.add_assoc, ← Nat.mul_succ] at hrun'
    exact ⟨tr ++ tr', s'', hrun.trans hrun', h'', happ j tr tr' hq hq'⟩

/-! ## Systems whose operations are functions -/

/-- The operations a program performs when it runs alone, with their answers. -/
def Prog.log {α : Type} (ex : (o : Op) → σ → Res o × σ) :
    Prog Op Res Empty α → σ → List ((o : Op) × Res o)
  | ret _, _ => []
  | op o k, s => ⟨o, (ex o s).1⟩ :: (k (ex o s).1).log ex (ex o s).2
  | jump l, _ => l.elim

theorem Prog.log_bind {α β : Type} (ex : (o : Op) → σ → Res o × σ) (p : Prog Op Res Empty α)
    (f : α → Prog Op Res Empty β) (s : σ) :
    (p >>= f).log ex s = p.log ex s ++ (f (p.run ex s).1).log ex (p.run ex s).2 := by
  induction p generalizing s with
  | ret a => rfl
  | op o k ih =>
    rw [op_bind]
    show _ :: (k _ >>= f).log ex _ = _
    rw [ih]
    rfl
  | jump l => exact l.elim

/-- The system whose operations answer and act by the function `ex`, without labels or
surroundings. -/
def Sys.ofFun (ex : Tid → (o : Op) → σ → Res o × σ) (body : Call → Prog Op Res Empty Ret)
    (allow : (Tid → Option Call) → Tid → Call → Prop) : Sys Op Res Empty Tid Call Ret σ where
  exec t o s r s' := ex t o s = (r, s')
  env _ _ := False
  body := body
  code := Empty.elim
  allow := allow

omit [DecidableEq Tid] in
theorem Alone.ofFun {ex : Tid → (o : Op) → σ → Res o × σ} {body : Call → Prog Op Res Empty Ret}
    {allow : (Tid → Option Call) → Tid → Call → Prop} (t : Tid) (p : Prog Op Res Empty Ret)
    (s : σ) : Alone (Sys.ofFun ex body allow) t p s (p.log (ex t) s) (p.run (ex t) s).1
      (p.run (ex t) s).2 := by
  induction p generalizing s with
  | ret v => exact .ret
  | op o k ih => exact .op rfl (ih _ _)
  | jump l => exact l.elim

/-- The state after the listed calls, made one after the other. -/
def seqState (ex : Tid → (o : Op) → σ → Res o × σ) (body : Call → Prog Op Res Empty Ret) :
    List (Tid × Call) → σ → σ
  | [], s => s
  | (t, a) :: cs, s => seqState ex body cs ((body a).run (ex t) s).2

/-- The events of the listed calls, made one after the other. -/
def seqTrace (ex : Tid → (o : Op) → σ → Res o × σ) (body : Call → Prog Op Res Empty Ret) :
    List (Tid × Call) → Nat → σ → List (Event Op Res Tid Call Ret)
  | [], _, _ => []
  | (t, a) :: cs, n, s =>
    .call t n a :: (opEvents t n a ((body a).log (ex t) s) ++
      [.ret t n a ((body a).run (ex t) s).1]) ++
        seqTrace ex body cs (n + 1) ((body a).run (ex t) s).2

theorem Run.calls {ex : Tid → (o : Op) → σ → Res o × σ} {body : Call → Prog Op Res Empty Ret}
    {allow : (Tid → Option Call) → Tid → Call → Prop} {th : Tid → Thread Op Res Empty Call Ret}
    (cs : List (Tid × Call)) (hidle : ∀ x ∈ cs, th x.1 = .idle)
    (ha : ∀ x ∈ cs, allow (fun u => (th u).call?) x.1 x.2) (n : Nat) (s : σ) :
    Run (Sys.ofFun ex body allow) ⟨s, th, n⟩ (seqTrace ex body cs n s)
      ⟨seqState ex body cs s, th, n + cs.length⟩ := by
  induction cs generalizing n s with
  | nil => exact .refl
  | cons x cs ih =>
    obtain ⟨t, a⟩ := x
    have h₁ : Run (Sys.ofFun ex body allow) ⟨s, th, n⟩ _ _ :=
      Run.alone (hidle _ (List.mem_cons_self ..)) (ha _ (List.mem_cons_self ..))
        (Alone.ofFun t (body a) s)
    have h₂ := h₁.trans (ih (fun x hx => hidle x (List.mem_cons_of_mem _ hx))
      (fun x hx => ha x (List.mem_cons_of_mem _ hx)) (n + 1) _)
    rw [List.length_cons, Nat.add_comm cs.length 1, ← Nat.add_assoc]
    exact h₂

/-- Calls that do not overlap are a run. -/
theorem Run.seq {ex : Tid → (o : Op) → σ → Res o × σ} {body : Call → Prog Op Res Empty Ret}
    {allow : (Tid → Option Call) → Tid → Call → Prop} (cs : List (Tid × Call))
    (ha : ∀ x ∈ cs, allow (fun _ => none) x.1 x.2) (n : Nat) (s : σ) :
    Run (Sys.ofFun ex body allow) ⟨s, fun _ => .idle, n⟩ (seqTrace ex body cs n s)
      ⟨seqState ex body cs s, fun _ => .idle, n + cs.length⟩ :=
  Run.calls cs (fun _ _ => rfl) ha n s

omit [DecidableEq Tid] in
theorem mem_of_call_mem_seqTrace {ex : Tid → (o : Op) → σ → Res o × σ}
    {body : Call → Prog Op Res Empty Ret} {cs : List (Tid × Call)} {n : Nat} {s : σ} {t : Tid}
    {id : Nat} {a : Call} (h : .call t id a ∈ seqTrace ex body cs n s) : (t, a) ∈ cs := by
  induction cs generalizing n s with
  | nil => cases h
  | cons x cs ih =>
    rcases List.mem_cons.1 h with h | h
    · cases h
      exact List.mem_cons_self ..
    apply List.mem_cons_of_mem
    rcases List.mem_append.1 h with h | h
    · rcases List.mem_append.1 h with h | h
      · obtain ⟨o, -, ho⟩ := List.mem_map.1 h
        cases ho
      · cases List.mem_singleton.1 h
    · exact ih h

end Conc
