import RingBuf.Conc.Claims

/-!
# The trail of a call

What a call in progress has done so far (`Doing`): its own events since its start, in their order,
with those of other threads between them. A role often tells this list completely; then the
history can be cut at each of the call's operations (`Doing.split`), and what else has happened in
between is the work of others (`thread_ne_of_claim`).

* `trail_inductive`: a relation between roles and lists of operations that the moves keep.
* `Moment`: what was true at some time during the call.
* `escorted`: an operation that a call never performs without another one.
-/

namespace Conc

variable {Op : Type} {Res : Op → Type} {Lbl Tid Call Ret σ ρ π : Type}

/-- The thread an event belongs to. -/
def Event.thread : Event Op Res Tid Call Ret → Tid
  | .call t _ _ | .op t _ _ _ _ | .ret t _ _ _ => t

theorem thread_of_alone {t : Tid} {id : Nat} {c : Call} {ops : List ((o : Op) × Res o)} {v : Ret}
    {e : Event Op Res Tid Call Ret}
    (h : e ∈ .call t id c :: (opEvents t id c ops ++ [.ret t id c v])) : e.thread = t := by
  rcases List.mem_cons.1 h with rfl | h
  · rfl
  rcases List.mem_append.1 h with h | h
  · obtain ⟨x, -, rfl⟩ := List.mem_map.1 h
    rfl
  · obtain rfl := List.mem_singleton.1 h
    rfl

variable [DecidableEq Tid] {tr tr₁ tr₂ : List (Event Op Res Tid Call Ret)} {t : Tid} {id : Nat}
  {c : Call} {ops : List ((o : Op) × Res o)}

/-- The events of one thread. -/
def eventsOf (t : Tid) (tr : List (Event Op Res Tid Call Ret)) : List (Event Op Res Tid Call Ret) :=
  tr.filter fun e => e.thread = t

@[simp] theorem eventsOf_append : eventsOf t (tr₁ ++ tr₂) = eventsOf t tr₁ ++ eventsOf t tr₂ :=
  List.filter_append ..

theorem eventsOf_self {e : Event Op Res Tid Call Ret} (h : e.thread = t) : eventsOf t [e] = [e] :=
  List.filter_cons_of_pos (decide_eq_true h)

theorem eventsOf_other {e : Event Op Res Tid Call Ret} (h : e.thread ≠ t) : eventsOf t [e] = [] :=
  List.filter_cons_of_neg (by simpa using h)

/-- What a thread does is cut where its operations are. -/
theorem eventsOf_split {ops₁ ops₂ : List ((o : Op) × Res o)} {x : (o : Op) × Res o} :
    ∀ {tr}, eventsOf t tr = (opEvents t id c (ops₁ ++ x :: ops₂) :
        List (Event Op Res Tid Call Ret)) →
      ∃ tr₁ tr₂, tr = tr₁ ++ .op t id c x.1 x.2 :: tr₂ ∧ eventsOf t tr₁ = opEvents t id c ops₁ ∧
        eventsOf t tr₂ = opEvents t id c ops₂ := by
  intro tr h
  have h' : tr.filter (fun e => e.thread = t) =
      opEvents t id c ops₁ ++ .op t id c x.1 x.2 :: opEvents t id c ops₂ :=
    h.trans List.map_append
  obtain ⟨tr₁, tr', rfl, h₁, h'⟩ := List.filter_eq_append_iff.1 h'
  obtain ⟨tr₂, tr₃, rfl, h₂, -, h₃⟩ := List.filter_eq_cons_iff.1 h'
  refine ⟨tr₁ ++ tr₂, tr₃, by simp, ?_, h₃⟩
  rw [eventsOf_append, eventsOf, h₁, eventsOf, List.filter_eq_nil_iff.2 h₂, List.append_nil]

/-- Thread `t` has started call `id`, and the operations `ops` are all that it has done since. -/
def Doing (tr : List (Event Op Res Tid Call Ret)) (t : Tid) (id : Nat) (c : Call)
    (ops : List ((o : Op) × Res o)) : Prop :=
  ∃ tr₁ tr₂, tr = tr₁ ++ .call t id c :: tr₂ ∧ (∀ e ∈ tr₁, e.id ≠ id) ∧
    eventsOf t tr₂ = opEvents t id c ops

namespace Doing

theorem call (h : ∀ e ∈ tr, e.id ≠ id) : Doing (tr ++ [.call t id c]) t id c [] :=
  ⟨tr, [], rfl, h, rfl⟩

theorem op (h : Doing tr t id c ops) (o : Op) (r : Res o) :
    Doing (tr ++ [.op t id c o r]) t id c (ops ++ [⟨o, r⟩]) := by
  obtain ⟨tr₁, tr₂, rfl, hnew, hops⟩ := h
  refine ⟨tr₁, tr₂ ++ [.op t id c o r], by simp, hnew, ?_⟩
  have hself : eventsOf t [(.op t id c o r : Event Op Res Tid Call Ret)] = [.op t id c o r] :=
    eventsOf_self rfl
  rw [eventsOf_append, hops, hself, opEvents, opEvents, List.map_append]
  rfl

theorem other (h : Doing tr t id c ops) {e : Event Op Res Tid Call Ret} (he : e.thread ≠ t) :
    Doing (tr ++ [e]) t id c ops := by
  obtain ⟨tr₁, tr₂, rfl, hnew, hops⟩ := h
  refine ⟨tr₁, tr₂ ++ [e], by simp, hnew, ?_⟩
  rw [eventsOf_append, hops, eventsOf_other he, List.append_nil]

/-- The history just before and just after an operation of the call. -/
theorem split {ops₁ ops₂ : List ((o : Op) × Res o)} {x : (o : Op) × Res o}
    (h : Doing tr t id c (ops₁ ++ x :: ops₂)) :
    ∃ tr₁ tr₂, tr = tr₁ ++ .op t id c x.1 x.2 :: tr₂ ∧ Doing tr₁ t id c ops₁ ∧
      eventsOf t tr₂ = opEvents t id c ops₂ := by
  obtain ⟨tr₀, tr', rfl, hnew, hops⟩ := h
  obtain ⟨tr₁, tr₂, rfl, h₁, h₂⟩ := eventsOf_split hops
  exact ⟨tr₀ ++ .call t id c :: tr₁, tr₂, by simp, ⟨tr₀, tr₁, rfl, hnew, h₁⟩, h₂⟩

/-- The history just before an operation of the call and just after a later one, with what the call
has done between them. -/
theorem between {ops₁ ops₂ : List ((o : Op) × Res o)} {x y : (o : Op) × Res o}
    (h : Doing tr t id c (x :: ops₁ ++ y :: ops₂)) :
    ∃ tr₁ tr₂ tr₃, tr = tr₁ ++ .op t id c x.1 x.2 :: tr₂ ++ .op t id c y.1 y.2 :: tr₃ ∧
      eventsOf t tr₂ = opEvents t id c ops₁ := by
  obtain ⟨tr', tr₃, rfl, h', -⟩ := h.split
  have hfirst : Doing tr' t id c ([] ++ x :: ops₁) := h'
  obtain ⟨tr₁, tr₂, rfl, -, h₂⟩ := hfirst.split
  exact ⟨tr₁, tr₂, tr₃, rfl, h₂⟩

theorem call_pair {x y : (o : Op) × Res o} (h : Doing tr t id c [x, y]) :
    ∃ tr₁ tr₂ tr₃, tr = tr₁ ++ .op t id c x.1 x.2 :: tr₂ ++ .op t id c y.1 y.2 :: tr₃ ∧
      .call t id c ∈ tr₁ := by
  have h₂ : Doing tr t id c ([x] ++ y :: []) := h
  obtain ⟨tr', tr₃, rfl, h', -⟩ := h₂.split
  have h₁ : Doing tr' t id c ([] ++ x :: []) := h'
  obtain ⟨tr₁, tr₂, rfl, ⟨tr₀, tr₄, rfl, -, -⟩, -⟩ := h₁.split
  exact ⟨_, tr₂, tr₃, rfl, by simp⟩

theorem pair {x y : (o : Op) × Res o} (h : Doing tr t id c [x, y]) :
    ∃ tr₁ tr₂ tr₃, tr = tr₁ ++ .op t id c x.1 x.2 :: tr₂ ++ .op t id c y.1 y.2 :: tr₃ ∧
      eventsOf t tr₂ = opEvents t id c [] := by
  have h' : Doing tr t id c (x :: [] ++ y :: []) := h
  exact h'.between

theorem triple {x y z : (o : Op) × Res o} (h : Doing tr t id c [x, y, z]) :
    ∃ tr₁ tr₂ tr₃, tr = tr₁ ++ .op t id c x.1 x.2 :: tr₂ ++ .op t id c z.1 z.2 :: tr₃ ∧
      eventsOf t tr₂ = opEvents t id c [y] := by
  have h' : Doing tr t id c (x :: [y] ++ z :: []) := h
  exact h'.between

theorem mem (h : Doing tr t id c ops) {c' : Call} {o : Op} {r : Res o}
    (he : .op t id c' o r ∈ tr) : ⟨o, r⟩ ∈ ops := by
  obtain ⟨tr₁, tr₂, rfl, hnew, hops⟩ := h
  rcases List.mem_append.1 he with he | he
  · exact absurd rfl (hnew _ he)
  · rcases List.mem_cons.1 he with he | he
    · cases he
    · have hmem : .op t id c' o r ∈ eventsOf t tr₂ := List.mem_filter.2 ⟨he, decide_eq_true rfl⟩
      rw [hops] at hmem
      obtain ⟨x, hx, he⟩ := List.mem_map.1 hmem
      cases he
      exact hx

end Doing

/-- While a thread claims nothing, the claims are those of others. -/
theorem thread_ne_of_claim {take : (o : Op) → Res o → Option π}
    (h : eventsOf t tr = opEvents t id c ops) (hops : ∀ x ∈ ops, take x.1 x.2 = none)
    {d : Claim Tid Call π} (hd : d ∈ claims take tr) : d.thread ≠ t := by
  rintro rfl
  obtain ⟨o, r, he, hp⟩ := exists_op_of_mem_claims hd
  have hmem : .op d.thread d.id d.call o r ∈ eventsOf d.thread tr :=
    List.mem_filter.2 ⟨he, decide_eq_true rfl⟩
  rw [h] at hmem
  obtain ⟨x, hx, hxe⟩ := List.mem_map.1 hmem
  cases hxe
  cases (hops _ hx).symm.trans hp

/-! ## Moments of a call -/

/-- At some moment since the start of call `id` of thread `t`, the history was as `M` says. -/
def Moment (M : List (Event Op Res Tid Call Ret) → Prop) (tr : List (Event Op Res Tid Call Ret))
    (t : Tid) (id : Nat) : Prop :=
  ∃ tr₁ tr₂ c, tr = tr₁ ++ tr₂ ∧ .call t id c ∈ tr₁ ∧ M tr₁

omit [DecidableEq Tid] in
theorem Moment.now {M : List (Event Op Res Tid Call Ret) → Prop} (hc : .call t id c ∈ tr)
    (hM : M tr) : Moment M tr t id :=
  ⟨tr, [], c, (List.append_nil tr).symm, hc, hM⟩

omit [DecidableEq Tid] in
theorem Moment.append {M : List (Event Op Res Tid Call Ret) → Prop} (h : Moment M tr t id)
    (tr' : List (Event Op Res Tid Call Ret)) : Moment M (tr ++ tr') t id := by
  obtain ⟨tr₁, tr₂, c, rfl, hc, hM⟩ := h
  exact ⟨tr₁, tr₂ ++ tr', c, List.append_assoc .., hc, hM⟩

omit [DecidableEq Tid] in
theorem Moment.after {M : List (Event Op Res Tid Call Ret) → Prop}
    {tr' : List (Event Op Res Tid Call Ret)} (h : Moment M (tr ++ tr') t id)
    (hnew : ∀ e ∈ tr, e.id ≠ id) : ∃ k ≤ tr'.length, M (tr ++ tr'.take k) := by
  obtain ⟨tr₁, tr₂, c, htr, hc, hM⟩ := h
  rcases List.append_eq_append_iff.1 htr with ⟨tr₃, rfl, rfl⟩ | ⟨tr₃, rfl, rfl⟩
  · refine ⟨tr₃.length, by simp, ?_⟩
    rw [List.take_left']
    · exact hM
    · rfl
  · exact absurd rfl (hnew _ (List.mem_append_left _ hc))

omit [DecidableEq Tid] in
theorem thread_of_claim {take : (o : Op) → Res o → Option π} {e : Event Op Res Tid Call Ret}
    {d : Claim Tid Call π} (h : d ∈ claims take [e]) : d.thread = e.thread := by
  obtain ⟨o, r, he, -⟩ := exists_op_of_mem_claims h
  rw [← List.mem_singleton.1 he]
  rfl

/-! ## Roles that tell the trail -/

variable {P : Proto Op Res Lbl Call Ret ρ} {S : Sys Op Res Lbl Tid Call Ret σ} {s₀ : σ}
  {A : List (Event Op Res Tid Call Ret) → σ → Roles Tid Call ρ → Prop}

/-- What the moves keep true of a role and the operations that have led to it. -/
theorem trail_inductive (T : ρ → List ((o : Op) × Res o) → Prop) (hstart : ∀ c, T (P.start c) [])
    (hstep : ∀ {l o r l' ops}, P.trans l o r l' → T l ops → T l' (ops ++ [⟨o, r⟩])) :
    InductiveUnder P S s₀ A fun tr _ R =>
      ∀ t a, R t = some a → ∃ ops, T a.role ops ∧ Doing tr t a.id a.call ops where
  init _ := by simp
  call hid _ hI ht _ _ u b hb := by
    rcases update_some_iff.1 hb with ⟨rfl, hy⟩ | ⟨hu, hb⟩
    · obtain rfl := Option.some.inj hy
      exact ⟨[], hstart _, .call fun e he => Nat.ne_of_lt (hid.history e he)⟩
    · obtain ⟨ops, hT, hd⟩ := hI u b hb
      exact ⟨ops, hT, hd.other (Ne.symm hu)⟩
  op _ _ hI ht hm _ _ u b hb := by
    rcases update_some_iff.1 hb with ⟨rfl, hy⟩ | ⟨hu, hb⟩
    · obtain rfl := Option.some.inj hy
      obtain ⟨ops, hT, hd⟩ := hI _ _ ht
      exact ⟨_, hstep hm hT, hd.op _ _⟩
    · obtain ⟨ops, hT, hd⟩ := hI u b hb
      exact ⟨ops, hT, hd.other (Ne.symm hu)⟩
  ret _ _ hI _ _ _ u b hb := by
    rcases update_some_iff.1 hb with ⟨-, hy⟩ | ⟨hu, hb⟩
    · cases hy
    · obtain ⟨ops, hT, hd⟩ := hI u b hb
      exact ⟨ops, hT, hd.other (Ne.symm hu)⟩
  env _ hI _ _ := hI

/-! ## Operations that come with another one -/

section Escort

variable (p q : (o : Op) → Res o → Bool) (K : Call → Prop)

/-- The role of a call is whether it has performed an operation of `p`, and one of `q`. Calls of
kind `K` may only return with both or without the first. -/
def escort (Op : Type) (Res : Op → Type) (Lbl Call Ret : Type) (p q : (o : Op) → Res o → Bool)
    (K : Call → Prop) : Proto Op Res Lbl Call Ret (Call × Bool × Bool) where
  start c := (c, false, false)
  trans l o r l' := l' = (l.1, l.2.1 || p o r, l.2.2 || q o r)
  final l _ := K l.1 → l.2.1 = true → l.2.2 = true
  entry _ _ := False

variable {p q K}

theorem escort_wp_of_not {α : Type} {x : Prog Op Res Empty α} {Q : Call × Bool × Bool → α → Prop}
    {l : Call × Bool × Bool} (hQ : ∀ l' a, l'.1 = l.1 → Q l' a) :
    (escort Op Res Empty Call Ret p q K).wp x Q l := by
  induction x generalizing l with
  | ret a => exact hQ l a rfl
  | op o k ih => exact fun r => ⟨_, rfl, ih r fun l' a h => hQ l' a h⟩
  | jump j => exact j.elim

theorem escort_wp_of_second {α : Type} {x : Prog Op Res Empty α} {Q : Call × Bool × Bool → α → Prop}
    {l : Call × Bool × Bool} (hQ : ∀ l' a, l'.2.2 = true → Q l' a) (hl : l.2.2 = true) :
    (escort Op Res Empty Call Ret p q K).wp x Q l := by
  induction x generalizing l with
  | ret a => exact hQ l a hl
  | op o k ih => exact fun r => ⟨_, rfl, ih r (by simp [hl])⟩
  | jump j => exact j.elim

/-- A call of kind `K` that has performed an operation of `p` has performed one of `q`. -/
theorem escorted (hP : (escort Op Res Lbl Call Ret p q K).Follows S) {v : Ret}
    {c₁ : Config Op Res Lbl Tid Call Ret σ}
    (h : Run S (.start s₀) (tr₁ ++ .ret t id c v :: tr₂) c₁) (hK : K c) {o : Op} {r : Res o}
    (hmem : .op t id c o r ∈ tr₁) (hp : p o r = true) :
    ∃ o' r', .op t id c o' r' ∈ tr₁ ∧ q o' r' = true := by
  have hcall : InductiveUnder (escort Op Res Lbl Call Ret p q K) S s₀ (fun _ _ _ => True)
      fun _ _ R => ∀ t a, R t = some a → a.role.1 = a.call :=
    roles_inductive (fun (c : Call) (l : Call × Bool × Bool) => l.1 = c) (fun _ => rfl)
      fun {c l o r l'} hm hl => (congrArg Prod.fst (show l' = _ from hm)).trans hl
  have htrail : InductiveUnder (escort Op Res Lbl Call Ret p q K) S s₀ (fun _ _ _ => True)
      fun tr _ R => ∀ t a, R t = some a → ∃ ops, (a.role.2.1 = ops.any (fun x => p x.1 x.2) ∧
        a.role.2.2 = ops.any fun x => q x.1 x.2) ∧ Doing tr t a.id a.call ops := by
    refine trail_inductive (fun (l : Call × Bool × Bool) ops =>
      l.2.1 = ops.any (fun x => p x.1 x.2) ∧ l.2.2 = ops.any fun x => q x.1 x.2)
      (fun _ => ⟨rfl, rfl⟩) fun {l o r l' ops} hm hl => ?_
    obtain rfl : l' = _ := hm
    simp [hl.1, hl.2]
  obtain ⟨n, s, R, l, -, ⟨hc, ht⟩, hR, hfin⟩ :=
    Inductive.before_ret hP (hcall.both htrail) h
  obtain ⟨ops, ⟨hlp, hlq⟩, tr₀, tr', htr, hnew, hops⟩ := ht t _ hR
  have hcall : l.1 = c := hc t _ hR
  have hdoing : Doing tr₁ t id c ops := ⟨tr₀, tr', htr, hnew, hops⟩
  have hfirst : l.2.1 = true := by
    rw [hlp, List.any_eq_true]
    exact ⟨⟨o, r⟩, hdoing.mem hmem, hp⟩
  have hsecond := hfin (hcall ▸ hK) hfirst
  rw [hlq, List.any_eq_true] at hsecond
  obtain ⟨x, hx, hq⟩ := hsecond
  refine ⟨x.1, x.2, ?_, hq⟩
  have hev : .op t id c x.1 x.2 ∈ eventsOf t tr' := by
    rw [hops]
    exact List.mem_map_of_mem hx
  rw [htr]
  exact List.mem_append_right _ (List.mem_cons_of_mem _ (List.mem_filter.1 hev).1)

end Escort

end Conc
