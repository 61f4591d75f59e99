import RingBuf.Conc.Machine

/-!
# Protocols: what each thread may do, and what holds of all threads

A protocol gives every thread a *role*: where it stands, as far as the shared state is
concerned. An operation moves the thread from role to role (`Proto.trans`), and a role says
which values a call may return from it (`Proto.final`). A program *follows* the protocol from
a role when every operation it performs is a move the role has, whatever the answers are
(`Proto.wp`, with the usual rules of weakest preconditions).

Once the programs are known to follow it (`Proto.Follows`), the protocol replaces them: an
assertion about the history, the shared state and the roles that survives every move survives
every run (`Inductive.run`). Each code path is checked once against the protocol, and each
invariant once against the moves.

* `InductiveUnder A I`: `I` is kept by every move, where `A` is known before and after it.
* `InductiveUnder.and`: invariants are proved in layers, each under the ones below.
* `Inductive.run`: an inductive assertion holds of every run.
* `Inductive.before_op`, `Inductive.before_call`, `Inductive.before_ret`: what it says just before
  an event of the run.
-/

namespace Conc

variable {Op : Type} {Res : Op → Type} {Lbl Tid Call Ret σ ρ α β : Type}

/-- A protocol with roles `ρ` for the calls of a system. -/
structure Proto (Op : Type) (Res : Op → Type) (Lbl Call Ret ρ : Type) where
  /-- The role a call starts in. -/
  start : Call → ρ
  /-- The moves: in a role, an operation with its answer leads to a role. -/
  trans : ρ → (o : Op) → Res o → ρ → Prop
  /-- What may be returned from a role. -/
  final : ρ → Ret → Prop
  /-- The roles from which a label may be jumped to. -/
  entry : Lbl → ρ → Prop

namespace Proto

variable (P : Proto Op Res Lbl Call Ret ρ)

/-- From role `l`, program `p` only makes moves of the protocol, and it ends with a value and a
role that satisfy `Q`. -/
def wp : Prog Op Res Lbl α → (ρ → α → Prop) → ρ → Prop
  | .ret a, Q, l => Q l a
  | .op o k, Q, l => ∀ r, ∃ l', P.trans l o r l' ∧ wp (k r) Q l'
  | .jump j, _, l => P.entry j l

variable {P}

@[simp] theorem wp_ret {a : α} {Q : ρ → α → Prop} {l : ρ} : P.wp (.ret a) Q l ↔ Q l a := Iff.rfl

@[simp] theorem wp_jump {j : Lbl} {Q : ρ → α → Prop} {l : ρ} :
    P.wp (.jump j) Q l ↔ P.entry j l := Iff.rfl

theorem wp_op {o : Op} {k : Res o → Prog Op Res Lbl α} {Q : ρ → α → Prop} {l : ρ}
    (h : ∀ r, ∃ l', P.trans l o r l' ∧ P.wp (k r) Q l') : P.wp (.op o k) Q l := h

/-- Sequencing: the second program starts where the first one ends. -/
theorem wp_bind {p : Prog Op Res Lbl α} {f : α → Prog Op Res Lbl β} {Q : ρ → β → Prop} {l : ρ}
    (h : P.wp p (fun l' a => P.wp (f a) Q l') l) : P.wp (p >>= f) Q l := by
  induction p generalizing l with
  | ret a => exact h
  | op o k ih =>
    intro r
    obtain ⟨l', ht, hk⟩ := h r
    exact ⟨l', ht, ih r hk⟩
  | jump j => exact h

end Proto

/-! ## Threads as roles -/

/-- A call in progress, with the role of its thread. -/
structure Active (Call ρ : Type) where
  id : Nat
  call : Call
  role : ρ

/-- The roles of all threads; an idle thread has none. -/
abbrev Roles (Tid Call ρ : Type) := Tid → Option (Active Call ρ)

/-- Every call, and the code behind every label, follows the protocol. -/
structure Proto.Follows (P : Proto Op Res Lbl Call Ret ρ) (S : Sys Op Res Lbl Tid Call Ret σ) :
    Prop where
  body : ∀ a, P.wp (S.body a) P.final (P.start a)
  code : ∀ j l, P.entry j l → P.wp (S.code j) P.final l

/-- The identifiers in use are below `n`, and no two calls in progress share one. -/
structure Ids (n : Nat) (tr : List (Event Op Res Tid Call Ret)) (R : Roles Tid Call ρ) :
    Prop where
  history : ∀ e ∈ tr, e.id < n
  active : ∀ t a, R t = some a → a.id < n
  inj : ∀ t u a b, R t = some a → R u = some b → a.id = b.id → t = u

/-- A thread's program, read against its role: both idle, or the same call with a program that
follows the protocol from the role. -/
def Follow (P : Proto Op Res Lbl Call Ret ρ) :
    Thread Op Res Lbl Call Ret → Option (Active Call ρ) → Prop
  | .idle, none => True
  | .run id a p, some x => x.id = id ∧ x.call = a ∧ P.wp p P.final x.role
  | _, _ => False

theorem Follow.call? {P : Proto Op Res Lbl Call Ret ρ} {th : Thread Op Res Lbl Call Ret}
    {x : Option (Active Call ρ)} (h : Follow P th x) : th.call? = x.map Active.call := by
  cases th <;> cases x <;> simp_all [Follow, Thread.call?]

theorem Follow.run {P : Proto Op Res Lbl Call Ret ρ} {id : Nat} {a : Call}
    {p : Prog Op Res Lbl Ret} {x : Option (Active Call ρ)} (h : Follow P (.run id a p) x) :
    ∃ l, x = some ⟨id, a, l⟩ ∧ P.wp p P.final l := by
  cases x with
  | none => exact h.elim
  | some x => obtain ⟨rfl, rfl, h⟩ := h; exact ⟨x.role, rfl, h⟩

theorem Follow.idle {P : Proto Op Res Lbl Call Ret ρ} {x : Option (Active Call ρ)}
    (h : Follow P .idle x) : x = none := by
  cases x with
  | none => rfl
  | some x => exact h.elim

/-! ## Inductive assertions -/

variable [DecidableEq Tid]

theorem update_some_iff {β : Type} {f : Tid → Option β} {t u : Tid} {x : Option β} {b : β} :
    Function.update f t x u = some b ↔ (u = t ∧ x = some b) ∨ (u ≠ t ∧ f u = some b) := by
  by_cases h : u = t
  · subst h; simp
  · simp [h]

/-- `I` survives every move, where `A` may be used of the situation before and after it. -/
structure InductiveUnder (P : Proto Op Res Lbl Call Ret ρ) (S : Sys Op Res Lbl Tid Call Ret σ)
    (s₀ : σ) (A I : List (Event Op Res Tid Call Ret) → σ → Roles Tid Call ρ → Prop) : Prop where
  init : A [] s₀ (fun _ => none) → I [] s₀ fun _ => none
  call : ∀ {tr s R t id a}, Ids id tr R → A tr s R → I tr s R → R t = none →
    S.allow (fun u => (R u).map Active.call) t a →
    A (tr ++ [.call t id a]) s (Function.update R t (some ⟨id, a, P.start a⟩)) →
    I (tr ++ [.call t id a]) s (Function.update R t (some ⟨id, a, P.start a⟩))
  op : ∀ {n tr s R t id a l o r l' s'}, Ids n tr R → A tr s R → I tr s R →
    R t = some ⟨id, a, l⟩ → P.trans l o r l' → S.exec t o s r s' →
    A (tr ++ [.op t id a o r]) s' (Function.update R t (some ⟨id, a, l'⟩)) →
    I (tr ++ [.op t id a o r]) s' (Function.update R t (some ⟨id, a, l'⟩))
  ret : ∀ {n tr s R t id a l v}, Ids n tr R → A tr s R → I tr s R →
    R t = some ⟨id, a, l⟩ → P.final l v →
    A (tr ++ [.ret t id a v]) s (Function.update R t none) →
    I (tr ++ [.ret t id a v]) s (Function.update R t none)
  env : ∀ {tr s R s'}, A tr s R → I tr s R → S.env s s' → A tr s' R → I tr s' R

/-- `I` survives every move. -/
abbrev Inductive (P : Proto Op Res Lbl Call Ret ρ) (S : Sys Op Res Lbl Tid Call Ret σ) (s₀ : σ)
    (I : List (Event Op Res Tid Call Ret) → σ → Roles Tid Call ρ → Prop) : Prop :=
  InductiveUnder P S s₀ (fun _ _ _ => True) I

variable {P : Proto Op Res Lbl Call Ret ρ} {S : Sys Op Res Lbl Tid Call Ret σ} {s₀ : σ}
  {A I J : List (Event Op Res Tid Call Ret) → σ → Roles Tid Call ρ → Prop}

/-- **Layering.** An assertion proved under an inductive one is inductive together with it. -/
theorem InductiveUnder.and (hA : Inductive P S s₀ A) (hI : InductiveUnder P S s₀ A I) :
    Inductive P S s₀ fun tr s R => A tr s R ∧ I tr s R where
  init _ := ⟨hA.init trivial, hI.init (hA.init trivial)⟩
  call hid _ h ht ha _ := by
    have hA' := hA.call hid trivial h.1 ht ha trivial
    exact ⟨hA', hI.call hid h.1 h.2 ht ha hA'⟩
  op hid _ h ht hm he _ := by
    have hA' := hA.op hid trivial h.1 ht hm he trivial
    exact ⟨hA', hI.op hid h.1 h.2 ht hm he hA'⟩
  ret hid _ h ht hf _ := by
    have hA' := hA.ret hid trivial h.1 ht hf trivial
    exact ⟨hA', hI.ret hid h.1 h.2 ht hf hA'⟩
  env _ h he _ := by
    have hA' := hA.env trivial h.1 he trivial
    exact ⟨hA', hI.env h.1 h.2 he hA'⟩

theorem InductiveUnder.both (hI : InductiveUnder P S s₀ A I) (hJ : InductiveUnder P S s₀ A J) :
    InductiveUnder P S s₀ A fun tr s R => I tr s R ∧ J tr s R where
  init hA := ⟨hI.init hA, hJ.init hA⟩
  call hid hA h ht ha hA' := ⟨hI.call hid hA h.1 ht ha hA', hJ.call hid hA h.2 ht ha hA'⟩
  op hid hA h ht hm he hA' := ⟨hI.op hid hA h.1 ht hm he hA', hJ.op hid hA h.2 ht hm he hA'⟩
  ret hid hA h ht hf hA' := ⟨hI.ret hid hA h.1 ht hf hA', hJ.ret hid hA h.2 ht hf hA'⟩
  env hA h he hA' := ⟨hI.env hA h.1 he hA', hJ.env hA h.2 he hA'⟩

theorem InductiveUnder.congr (hI : InductiveUnder P S s₀ A I)
    (h : ∀ tr s R, I tr s R ↔ J tr s R) : InductiveUnder P S s₀ A J := by
  have : I = J := by
    funext tr s R
    exact propext (h tr s R)
  exact this ▸ hI

/-- What the run so far guarantees may be assumed: if `B` only gets stronger along a run, it is
enough to keep `I` as long as `B` holds. -/
theorem InductiveUnder.guard {B : List (Event Op Res Tid Call Ret) → Prop}
    (hB : ∀ tr e, B (tr ++ [e]) → B tr)
    (hI : InductiveUnder P S s₀ (fun tr s R => B tr ∧ A tr s R) I) :
    InductiveUnder P S s₀ A fun tr s R => B tr → I tr s R where
  init hA hb := hI.init ⟨hb, hA⟩
  call hid hA h ht ha hA' hb :=
    hI.call hid ⟨hB _ _ hb, hA⟩ (h (hB _ _ hb)) ht ha ⟨hb, hA'⟩
  op hid hA h ht hm he hA' hb :=
    hI.op hid ⟨hB _ _ hb, hA⟩ (h (hB _ _ hb)) ht hm he ⟨hb, hA'⟩
  ret hid hA h ht hf hA' hb :=
    hI.ret hid ⟨hB _ _ hb, hA⟩ (h (hB _ _ hb)) ht hf ⟨hb, hA'⟩
  env hA h he hA' hb := hI.env ⟨hb, hA⟩ (h hb) he ⟨hb, hA'⟩

/-! ## From moves to runs -/

theorem Follow.update {th : Tid → Thread Op Res Lbl Call Ret} {R : Roles Tid Call ρ}
    (h : ∀ u, Follow P (th u) (R u)) {t : Tid} {x : Thread Op Res Lbl Call Ret}
    {y : Option (Active Call ρ)} (hxy : Follow P x y) (u : Tid) :
    Follow P (Function.update th t x u) (Function.update R t y u) := by
  by_cases hu : u = t
  · subst hu; simpa using hxy
  · simpa [hu] using h u

theorem Ids.call {n : Nat} {tr : List (Event Op Res Tid Call Ret)} {R : Roles Tid Call ρ}
    (h : Ids n tr R) (t : Tid) (a : Call) (l : ρ) :
    Ids (n + 1) (tr ++ [.call t n a]) (Function.update R t (some ⟨n, a, l⟩)) where
  history e he := by
    rcases List.mem_append.1 he with he | he
    · exact Nat.lt_succ_of_lt (h.history e he)
    · obtain rfl := List.mem_singleton.1 he
      exact Nat.lt_succ_self n
  active u b hb := by
    by_cases hu : u = t
    · subst hu
      obtain rfl : _ = b := by simpa using hb
      exact Nat.lt_succ_self n
    · exact Nat.lt_succ_of_lt (h.active u b (by simpa [hu] using hb))
  inj u v b d hb hd hbd := by
    -- The new identifier `n` is above all the others.
    by_cases hu : u = t <;> by_cases hv : v = t
    · rw [hu, hv]
    · subst hu
      obtain rfl : _ = b := by simpa using hb
      have := h.active v d (by simpa [hv] using hd)
      simp only at hbd; omega
    · subst hv
      obtain rfl : _ = d := by simpa using hd
      have := h.active u b (by simpa [hu] using hb)
      simp only at hbd; omega
    · exact h.inj u v b d (by simpa [hu] using hb) (by simpa [hv] using hd) hbd

theorem Ids.move {n : Nat} {tr : List (Event Op Res Tid Call Ret)} {R : Roles Tid Call ρ}
    (h : Ids n tr R) {t : Tid} {id : Nat} {a : Call} {l : ρ} (ht : R t = some ⟨id, a, l⟩)
    {e : Event Op Res Tid Call Ret} (he : e.id = id) {y : Option (Active Call ρ)}
    (hy : ∀ b, y = some b → b.id = id) : Ids n (tr ++ [e]) (Function.update R t y) where
  history e' he' := by
    rcases List.mem_append.1 he' with he' | he'
    · exact h.history e' he'
    · obtain rfl := List.mem_singleton.1 he'
      exact he ▸ h.active t _ ht
  active u b hb := by
    by_cases hu : u = t
    · subst hu
      rw [hy b (by simpa using hb)]
      exact h.active u _ ht
    · exact h.active u b (by simpa [hu] using hb)
  inj u v b d hb hd hbd := by
    by_cases hu : u = t <;> by_cases hv : v = t
    · rw [hu, hv]
    · subst hu
      have hb' := hy b (by simpa using hb)
      exact h.inj u v _ d ht (by simpa [hv] using hd) (hb'.symm.trans hbd)
    · subst hv
      have hd' := hy d (by simpa using hd)
      exact h.inj u v b _ (by simpa [hu] using hb) ht (hbd.trans hd')
    · exact h.inj u v b d (by simpa [hu] using hb) (by simpa [hv] using hd) hbd

/-- **Soundness.** In every run of a system whose programs follow the protocol, the threads can
be given roles their programs follow such that every inductive assertion holds. -/
theorem Inductive.run (hP : P.Follows S) (hI : Inductive P S s₀ I)
    {tr : List (Event Op Res Tid Call Ret)} {c : Config Op Res Lbl Tid Call Ret σ}
    (h : Run S (.start s₀) tr c) :
    ∃ R, (∀ t, Follow P (c.thread t) (R t)) ∧ Ids c.fresh tr R ∧ I tr c.shared R := by
  induction h with
  | refl =>
    exact ⟨fun _ => none, fun _ => trivial,
      ⟨by simp, by simp, by simp⟩, hI.init trivial⟩
  | @tail tr c e c' _ hs ih =>
    obtain ⟨R, hF, hid, hi⟩ := ih
    cases hs with
    | @call t a ht ha =>
      have hR : R t = none := (ht ▸ hF t : Follow P .idle (R t)).idle
      have ha' : S.allow (fun u => (R u).map Active.call) t a := by
        simpa only [(hF _).call?] using ha
      exact ⟨Function.update R t (some ⟨c.fresh, a, P.start a⟩),
        Follow.update hF ⟨rfl, rfl, hP.body a⟩, hid.call t a _,
        hI.call hid trivial hi hR ha' trivial⟩
    | @op t id a o k r s' ht he =>
      obtain ⟨l, hR, hw⟩ := (ht ▸ hF t : Follow P (.run id a (.op o k)) (R t)).run
      obtain ⟨l', hm, hk⟩ := hw r
      exact ⟨Function.update R t (some ⟨id, a, l'⟩), Follow.update hF ⟨rfl, rfl, hk⟩,
        hid.move hR rfl (by rintro b ⟨⟩; rfl), hI.op hid trivial hi hR hm he trivial⟩
    | @jump t id a j ht =>
      obtain ⟨l, hR, hw⟩ := (ht ▸ hF t : Follow P (.run id a (.jump j)) (R t)).run
      have hu : Function.update R t (some ⟨id, a, l⟩) = R := by rw [← hR, Function.update_eq_self]
      refine ⟨R, ?_, by simpa using hid, by simpa using hi⟩
      rw [← hu]
      exact Follow.update hF ⟨rfl, rfl, hP.code j l hw⟩
    | @ret t id a v ht =>
      obtain ⟨l, hR, hw⟩ := (ht ▸ hF t : Follow P (.run id a (.ret v)) (R t)).run
      exact ⟨Function.update R t none, Follow.update hF trivial,
        hid.move hR rfl (by simp), hI.ret hid trivial hi hR hw trivial⟩
    | env he => exact ⟨R, hF, by simpa using hid, by simpa using hI.env trivial hi he trivial⟩

theorem Inductive.idle (hP : P.Follows S) (hI : Inductive P S s₀ I)
    {tr : List (Event Op Res Tid Call Ret)} {c : Config Op Res Lbl Tid Call Ret σ}
    (h : Run S (.start s₀) tr c) (hidle : ∀ t, c.thread t = .idle) :
    I tr c.shared fun _ => none := by
  obtain ⟨R, hF, -, hi⟩ := hI.run hP h
  have hR : R = fun _ => none := by
    funext t
    have ht := hF t
    rw [hidle t] at ht
    exact ht.idle
  exact hR ▸ hi

/-- Just before an operation of a run, its thread has a role with that move. -/
theorem Inductive.before_op (hP : P.Follows S) (hI : Inductive P S s₀ I)
    {tr₁ tr₂ : List (Event Op Res Tid Call Ret)} {c : Config Op Res Lbl Tid Call Ret σ} {t : Tid}
    {id : Nat} {a : Call} {o : Op} {r : Res o}
    (h : Run S (.start s₀) (tr₁ ++ .op t id a o r :: tr₂) c) :
    ∃ n s s' R l l', Ids n tr₁ R ∧ I tr₁ s R ∧ R t = some ⟨id, a, l⟩ ∧ P.trans l o r l' ∧
      S.exec t o s r s' := by
  obtain ⟨c₁, c₂, h₁, hs, -⟩ := h.split rfl
  obtain ⟨R, hF, hid, hi⟩ := hI.run hP h₁
  cases hs with
  | @op _ _ _ _ k _ s' ht he =>
    obtain ⟨l, hR, hw⟩ := (ht ▸ hF t : Follow P (.run id a (.op o k)) (R t)).run
    obtain ⟨l', hm, -⟩ := hw r
    exact ⟨_, _, s', R, l, l', hid, hi, hR, hm, he⟩

theorem Inductive.before_call (hP : P.Follows S) (hI : Inductive P S s₀ I)
    {tr₁ tr₂ : List (Event Op Res Tid Call Ret)} {c : Config Op Res Lbl Tid Call Ret σ} {t : Tid}
    {id : Nat} {a : Call} (h : Run S (.start s₀) (tr₁ ++ .call t id a :: tr₂) c) :
    ∃ s R, Ids id tr₁ R ∧ I tr₁ s R := by
  obtain ⟨c₁, c₂, h₁, hs, -⟩ := h.split rfl
  obtain ⟨R, -, hid, hi⟩ := hI.run hP h₁
  cases hs with
  | call _ _ => exact ⟨_, R, hid, hi⟩

theorem Inductive.before_ret (hP : P.Follows S) (hI : Inductive P S s₀ I)
    {tr₁ tr₂ : List (Event Op Res Tid Call Ret)} {c : Config Op Res Lbl Tid Call Ret σ} {t : Tid}
    {id : Nat} {a : Call} {v : Ret} (h : Run S (.start s₀) (tr₁ ++ .ret t id a v :: tr₂) c) :
    ∃ n s R l, Ids n tr₁ R ∧ I tr₁ s R ∧ R t = some ⟨id, a, l⟩ ∧ P.final l v := by
  obtain ⟨c₁, c₂, h₁, hs, -⟩ := h.split rfl
  obtain ⟨R, hF, hid, hi⟩ := hI.run hP h₁
  cases hs with
  | ret ht =>
    obtain ⟨l, hR, hw⟩ := (ht ▸ hF t : Follow P (.run id a (.ret v)) (R t)).run
    exact ⟨_, _, R, l, hid, hi, hR, hw⟩

/-- What the moves keep true of a call and its role, whatever the other threads do. -/
theorem roles_inductive (J : Call → ρ → Prop) (hstart : ∀ a, J a (P.start a))
    (htrans : ∀ {a l o r l'}, P.trans l o r l' → J a l → J a l') :
    InductiveUnder P S s₀ A fun _ _ R => ∀ t a, R t = some a → J a.call a.role where
  init _ := by simp
  call _ _ h _ _ _ u b hb := by
    rcases update_some_iff.1 hb with ⟨-, hy⟩ | ⟨-, hb⟩
    · obtain rfl := Option.some.inj hy
      exact hstart _
    · exact h u b hb
  op _ _ h ht hm _ _ u b hb := by
    rcases update_some_iff.1 hb with ⟨-, hy⟩ | ⟨-, hb⟩
    · obtain rfl := Option.some.inj hy
      exact htrans hm (h _ _ ht)
    · exact h u b hb
  ret _ _ h _ _ _ u b hb := by
    rcases update_some_iff.1 hb with ⟨-, hy⟩ | ⟨-, hb⟩
    · cases hy
    · exact h u b hb
  env _ h _ _ := h

theorem caller_inductive (K : Tid → Call → Prop) (h : ∀ {cur t a}, S.allow cur t a → K t a) :
    InductiveUnder P S s₀ A fun _ _ R => ∀ t a, R t = some a → K t a.call where
  init _ := by simp
  call _ _ hI _ ha _ u b hb := by
    rcases update_some_iff.1 hb with ⟨rfl, hy⟩ | ⟨-, hb⟩
    · obtain rfl := Option.some.inj hy
      exact h ha
    · exact hI u b hb
  op _ _ hI ht _ _ _ u b hb := by
    rcases update_some_iff.1 hb with ⟨rfl, hy⟩ | ⟨-, hb⟩
    · obtain rfl := Option.some.inj hy
      have hc := hI _ _ ht
      exact hc
    · exact hI u b hb
  ret _ _ hI _ _ _ u b hb := by
    rcases update_some_iff.1 hb with ⟨-, hy⟩ | ⟨-, hb⟩
    · cases hy
    · exact hI u b hb
  env _ hI _ _ := hI

theorem called_inductive :
    InductiveUnder P S s₀ A fun tr _ R => ∀ t a, R t = some a → .call t a.id a.call ∈ tr where
  init _ := by simp
  call _ _ hI _ _ _ u b hb := by
    rcases update_some_iff.1 hb with ⟨rfl, hy⟩ | ⟨-, hb⟩
    · obtain rfl := Option.some.inj hy
      exact List.mem_append_right _ (List.mem_singleton_self _)
    · exact List.mem_append_left _ (hI u b hb)
  op _ _ hI ht _ _ _ u b hb := by
    apply List.mem_append_left
    rcases update_some_iff.1 hb with ⟨rfl, hy⟩ | ⟨-, hb⟩
    · obtain rfl := Option.some.inj hy
      have hc := hI _ _ ht
      exact hc
    · exact hI u b hb
  ret _ _ hI _ _ _ u b hb := by
    rcases update_some_iff.1 hb with ⟨-, hy⟩ | ⟨-, hb⟩
    · cases hy
    · exact List.mem_append_left _ (hI u b hb)
  env _ hI _ _ := hI

/-- If no call of kind `K` may start while another one is in progress, there is never more than
one in progress. -/
theorem alone_inductive (K : Call → Prop)
    (h : ∀ {cur t a}, S.allow cur t a → K a → ∀ u b, cur u = some b → ¬ K b) :
    InductiveUnder P S s₀ A fun _ _ R =>
      ∀ t u a b, R t = some a → R u = some b → K a.call → K b.call → t = u where
  init _ := by simp
  call {tr s R t id c} _ _ hI _ ha _ u v x y hx hy kx ky := by
    -- A call in progress of kind `K` would have kept the new one from starting.
    have hnew : ∀ w z, R w = some z → K c → ¬ K z.call := fun w z hz hc =>
      h ha hc w z.call (by rw [hz]; rfl)
    rcases update_some_iff.1 hx with ⟨rfl, ex⟩ | ⟨-, hx'⟩ <;>
      rcases update_some_iff.1 hy with ⟨rfl, ey⟩ | ⟨-, hy'⟩
    · rfl
    · obtain rfl := Option.some.inj ex
      exact absurd ky (hnew v y hy' kx)
    · obtain rfl := Option.some.inj ey
      exact absurd kx (hnew u x hx' ky)
    · exact hI u v x y hx' hy' kx ky
  op {n tr s R t id c l o r l' s'} _ _ hI ht _ _ _ u v x y hx hy kx ky := by
    -- The call of the thread that moved is the one it was in.
    have hold : ∀ w z, Function.update R t (some ⟨id, c, l'⟩) w = some z →
        ∃ z', R w = some z' ∧ z'.call = z.call := by
      intro w z hz
      rcases update_some_iff.1 hz with ⟨rfl, ez⟩ | ⟨-, hz⟩
      · obtain rfl := Option.some.inj ez
        exact ⟨_, ht, rfl⟩
      · exact ⟨z, hz, rfl⟩
    obtain ⟨x', hx', ex⟩ := hold u x hx
    obtain ⟨y', hy', ey⟩ := hold v y hy
    exact hI u v x' y' hx' hy' (ex ▸ kx) (ey ▸ ky)
  ret _ _ hI _ _ _ u v x y hx hy := by
    rcases update_some_iff.1 hx with ⟨-, hx⟩ | ⟨-, hx⟩
    · cases hx
    rcases update_some_iff.1 hy with ⟨-, hy⟩ | ⟨-, hy⟩
    · cases hy
    exact hI u v x y hx hy
  env _ hI _ _ := hI

end Conc
