import RingBuf.Conc.Trail

/-!
# What a history says of its calls

Identifiers tell the calls of a run apart. A call is made before it does anything, and nothing of
it happens after it has returned (`Run.called`, `Run.over`); what it has done so far is a path
through its program, whatever the other threads did in between (`Run.goes`, `Run.returned`,
`Run.takes`).
-/

namespace Conc

variable {Op : Type} {Res : Op → Type} {Lbl Tid Call Ret σ α : Type}

/-- The operations `ops` lead from program `p` to what is left of it. -/
inductive Prog.Goes (code : Lbl → Prog Op Res Lbl α) (p : Prog Op Res Lbl α) :
    List ((o : Op) × Res o) → Prog Op Res Lbl α → Prop
  | refl : Goes code p [] p
  | op {ops o k r} : Goes code p ops (.op o k) → Goes code p (ops ++ [⟨o, r⟩]) (k r)
  | jump {ops l} : Goes code p ops (.jump l) → Goes code p ops (code l)

/-- The operation of call `id` that an event shows. -/
def Event.opOf? (id : Nat) : Event Op Res Tid Call Ret → Option ((o : Op) × Res o)
  | .op _ j _ o r => if j = id then some ⟨o, r⟩ else none
  | _ => none

/-- The operations of call `id`, in their order. -/
def opsOf (id : Nat) (tr : List (Event Op Res Tid Call Ret)) : List ((o : Op) × Res o) :=
  tr.filterMap (Event.opOf? id)

section OpsOf

variable {tr tr' : List (Event Op Res Tid Call Ret)} {t : Tid} {id : Nat} {a : Call} {o : Op}
  {r : Res o} {v : Ret}

@[simp] theorem opsOf_append : opsOf id (tr ++ tr') = opsOf id tr ++ opsOf id tr' :=
  List.filterMap_append

theorem opsOf_snoc_op : opsOf id (tr ++ [.op t id a o r]) = opsOf id tr ++ [⟨o, r⟩] := by
  rw [opsOf_append]
  simp [opsOf, Event.opOf?]

theorem Event.opOf?_other {e : Event Op Res Tid Call Ret} (h : e.id ≠ id) : e.opOf? id = none := by
  cases e with
  | op t j a o r => exact if_neg h
  | _ => rfl

theorem opsOf_snoc_other {e : Event Op Res Tid Call Ret} (h : e.id ≠ id) :
    opsOf id (tr ++ [e]) = opsOf id tr := by
  rw [opsOf_append]
  simp [opsOf, Event.opOf?_other h]

theorem opsOf_of_new (h : ∀ e ∈ tr, e.id ≠ id) : opsOf id tr = [] := by
  refine List.filterMap_eq_nil_iff.2 fun e he => ?_
  exact Event.opOf?_other (h e he)

theorem mem_opsOf (h : .op t id a o r ∈ tr) : ⟨o, r⟩ ∈ opsOf id tr :=
  List.mem_filterMap.2 ⟨_, h, if_pos rfl⟩

theorem exists_of_mem_opsOf {x : (o : Op) × Res o} (h : x ∈ opsOf id tr) :
    ∃ t a, .op t id a x.1 x.2 ∈ tr := by
  obtain ⟨e, he, hx⟩ := List.mem_filterMap.1 h
  cases e with
  | op t j a o r =>
    simp only [Event.opOf?] at hx
    split at hx
    case isTrue hj =>
      obtain rfl := Option.some.inj hx
      exact ⟨t, a, hj ▸ he⟩
    case isFalse => cases hx
  | _ => cases hx

/-- What a call has done is cut where its operations are. -/
theorem opsOf_split {ops₁ ops₂ : List ((o : Op) × Res o)} {x : (o : Op) × Res o}
    (h : opsOf id tr = ops₁ ++ x :: ops₂) :
    ∃ tr₁ t a tr₂, tr = tr₁ ++ .op t id a x.1 x.2 :: tr₂ ∧ opsOf id tr₁ = ops₁ ∧
      opsOf id tr₂ = ops₂ := by
  obtain ⟨tr₁, tr', rfl, h₁, h'⟩ := List.filterMap_eq_append_iff.1 h
  obtain ⟨tr₂, e, tr₃, rfl, h₂, he, h₃⟩ := List.filterMap_eq_cons_iff.1 h'
  cases e with
  | op t j a o r =>
    simp only [Event.opOf?] at he
    split at he
    case isTrue hj =>
      subst hj
      obtain rfl := Option.some.inj he
      refine ⟨tr₁ ++ tr₂, t, a, tr₃, by simp, ?_, h₃⟩
      rw [opsOf_append, opsOf, h₁, opsOf, List.filterMap_eq_nil_iff.2 h₂, List.append_nil]
    case isFalse => cases he
  | _ => cases he

end OpsOf

/-- A program without labels returns `v` after the operations `ops` with their answers. -/
def Prog.Takes : Prog Op Res Empty α → List ((o : Op) × Res o) → α → Prop
  | ret a, ops, v => ops = [] ∧ a = v
  | op o k, ops, v => ∃ r ops', ops = ⟨o, r⟩ :: ops' ∧ (k r).Takes ops' v
  | jump l, _, _ => l.elim

theorem Prog.Takes.bind {β : Type} {p : Prog Op Res Empty α} {f : α → Prog Op Res Empty β}
    {ops : List ((o : Op) × Res o)} {v : β} (h : (p >>= f).Takes ops v) :
    ∃ a ops₁ ops₂, ops = ops₁ ++ ops₂ ∧ p.Takes ops₁ a ∧ (f a).Takes ops₂ v := by
  induction p generalizing ops with
  | ret a => exact ⟨a, [], ops, rfl, ⟨rfl, rfl⟩, h⟩
  | op o k ih =>
    obtain ⟨r, ops', rfl, h⟩ := h
    obtain ⟨a, ops₁, ops₂, rfl, h₁, h₂⟩ := ih r h
    exact ⟨a, ⟨o, r⟩ :: ops₁, ops₂, rfl, ⟨r, ops₁, rfl, h₁⟩, h₂⟩
  | jump l => exact l.elim

theorem Prog.Goes.takes {code : Empty → Prog Op Res Empty α} {p p' : Prog Op Res Empty α}
    {ops ops' : List ((o : Op) × Res o)} {v : α} (h : Prog.Goes code p ops p')
    (hv : p'.Takes ops' v) : p.Takes (ops ++ ops') v := by
  induction h generalizing ops' with
  | refl => exact hv
  | @op ops o k r _ ih =>
    rw [List.append_assoc]
    exact ih ⟨r, ops', rfl, hv⟩
  | @jump ops l => exact l.elim

variable [DecidableEq Tid] {S : Sys Op Res Lbl Tid Call Ret σ} {s₀ : σ}
  {tr tr₁ tr₂ : List (Event Op Res Tid Call Ret)} {c c' : Config Op Res Lbl Tid Call Ret σ}
  {t u : Tid} {id : Nat} {a b : Call} {v : Ret}

/-- What the history of a run says of its calls in progress. -/
structure Orderly (S : Sys Op Res Lbl Tid Call Ret σ) (tr : List (Event Op Res Tid Call Ret))
    (c : Config Op Res Lbl Tid Call Ret σ) : Prop where
  old : ∀ e ∈ tr, e.id < c.fresh
  lt : ∀ {t id a p}, c.thread t = .run id a p → id < c.fresh
  inj : ∀ {t u id a b p q}, c.thread t = .run id a p → c.thread u = .run id b q → t = u
  called : ∀ {t id a p}, c.thread t = .run id a p → .call t id a ∈ tr
  /-- What the call has done leads to what is left of its program. -/
  goes : ∀ {t id a p}, c.thread t = .run id a p → Prog.Goes S.code (S.body a) (opsOf id tr) p
  unfinished : ∀ {t id a p}, c.thread t = .run id a p → ∀ u b v, .ret u id b v ∉ tr

omit [DecidableEq Tid] in
theorem update_run_iff [DecidableEq Tid] {th : Tid → Thread Op Res Lbl Call Ret}
    {x : Thread Op Res Lbl Call Ret} {p : Prog Op Res Lbl Ret} :
    Function.update th t x u = .run id a p ↔
      (u = t ∧ x = .run id a p) ∨ (u ≠ t ∧ th u = .run id a p) := by
  by_cases hu : u = t
  · subst hu
    simp
  · simp [hu]

namespace Orderly

omit [DecidableEq Tid] in
theorem start : Orderly S [] (.start s₀) where
  old := by simp
  lt h := by cases h
  inj h := by cases h
  called h := by cases h
  goes h := by cases h
  unfinished h := by cases h

omit [DecidableEq Tid] in
theorem id_ne {p q : Prog Op Res Lbl Ret} {j : Nat} (h : Orderly S tr c)
    (ht : c.thread t = .run id a p) (hu : c.thread u = .run j b q) (hne : u ≠ t) : id ≠ j := by
  rintro rfl
  exact hne (h.inj hu ht)

theorem call (h : Orderly S tr c) (t : Tid) (a : Call) : Orderly S (tr ++ [.call t c.fresh a])
    ⟨c.shared, Function.update c.thread t (.run c.fresh a (S.body a)), c.fresh + 1⟩ where
  old e he := by
    rcases List.mem_append.1 he with he | he
    · exact Nat.lt_succ_of_lt (h.old e he)
    · obtain rfl := List.mem_singleton.1 he
      exact Nat.lt_succ_self _
  lt hu := by
    rcases update_run_iff.1 hu with ⟨-, hx⟩ | ⟨-, hu⟩
    · cases hx
      exact Nat.lt_succ_self _
    · exact Nat.lt_succ_of_lt (h.lt hu)
  inj hu hw := by
    rcases update_run_iff.1 hu with ⟨rfl, hx⟩ | ⟨-, hu'⟩ <;>
      rcases update_run_iff.1 hw with ⟨rfl, hy⟩ | ⟨-, hw'⟩
    · rfl
    · cases hx
      exact absurd (h.lt hw') (Nat.lt_irrefl _)
    · cases hy
      exact absurd (h.lt hu') (Nat.lt_irrefl _)
    · exact h.inj hu' hw'
  called hu := by
    rcases update_run_iff.1 hu with ⟨rfl, hx⟩ | ⟨-, hu⟩
    · cases hx
      exact List.mem_append_right _ (List.mem_singleton_self _)
    · exact List.mem_append_left _ (h.called hu)
  goes hu := by
    rcases update_run_iff.1 hu with ⟨-, hx⟩ | ⟨-, hu⟩
    · cases hx
      have hnew : ∀ e ∈ tr, e.id ≠ c.fresh := fun e he => Nat.ne_of_lt (h.old e he)
      rw [opsOf_append, opsOf_of_new hnew]
      exact .refl
    · rw [opsOf_snoc_other (Nat.ne_of_gt (h.lt hu))]
      exact h.goes hu
  unfinished hu w b v hret := by
    replace hret := (List.mem_append.1 hret).resolve_right (by simp)
    rcases update_run_iff.1 hu with ⟨-, hx⟩ | ⟨-, hu⟩
    · cases hx
      exact Nat.lt_irrefl _ (h.old _ hret)
    · exact h.unfinished hu w b v hret

theorem op {o : Op} {k : Res o → Prog Op Res Lbl Ret} (h : Orderly S tr c)
    (ht : c.thread t = .run id a (.op o k)) (r : Res o) (s' : σ) :
    Orderly S (tr ++ [.op t id a o r])
      ⟨s', Function.update c.thread t (.run id a (k r)), c.fresh⟩ where
  old e he := by
    rcases List.mem_append.1 he with he | he
    · exact h.old e he
    · obtain rfl := List.mem_singleton.1 he
      exact h.lt ht
  lt hu := by
    rcases update_run_iff.1 hu with ⟨-, hx⟩ | ⟨-, hu⟩
    · cases hx
      exact h.lt ht
    · exact h.lt hu
  inj hu hw := by
    rcases update_run_iff.1 hu with ⟨rfl, hx⟩ | ⟨-, hu'⟩ <;>
      rcases update_run_iff.1 hw with ⟨rfl, hy⟩ | ⟨-, hw'⟩
    · rfl
    · cases hx
      exact h.inj ht hw'
    · cases hy
      exact h.inj hu' ht
    · exact h.inj hu' hw'
  called hu := by
    apply List.mem_append_left
    rcases update_run_iff.1 hu with ⟨rfl, hx⟩ | ⟨-, hu⟩
    · cases hx
      exact h.called ht
    · exact h.called hu
  goes hu := by
    rcases update_run_iff.1 hu with ⟨-, hx⟩ | ⟨hne, hu⟩
    · cases hx
      rw [opsOf_snoc_op]
      exact (h.goes ht).op
    · rw [opsOf_snoc_other (h.id_ne ht hu hne)]
      exact h.goes hu
  unfinished hu w b v hret := by
    replace hret := (List.mem_append.1 hret).resolve_right (by simp)
    rcases update_run_iff.1 hu with ⟨-, hx⟩ | ⟨-, hu⟩
    · cases hx
      exact h.unfinished ht w b v hret
    · exact h.unfinished hu w b v hret

theorem jump {l : Lbl} (h : Orderly S tr c) (ht : c.thread t = .run id a (.jump l)) :
    Orderly S tr ⟨c.shared, Function.update c.thread t (.run id a (S.code l)), c.fresh⟩ where
  old := h.old
  lt hu := by
    rcases update_run_iff.1 hu with ⟨-, hx⟩ | ⟨-, hu⟩
    · cases hx
      exact h.lt ht
    · exact h.lt hu
  inj hu hw := by
    rcases update_run_iff.1 hu with ⟨rfl, hx⟩ | ⟨-, hu'⟩ <;>
      rcases update_run_iff.1 hw with ⟨rfl, hy⟩ | ⟨-, hw'⟩
    · rfl
    · cases hx
      exact h.inj ht hw'
    · cases hy
      exact h.inj hu' ht
    · exact h.inj hu' hw'
  called hu := by
    rcases update_run_iff.1 hu with ⟨rfl, hx⟩ | ⟨-, hu⟩
    · cases hx
      exact h.called ht
    · exact h.called hu
  goes hu := by
    rcases update_run_iff.1 hu with ⟨-, hx⟩ | ⟨-, hu⟩
    · cases hx
      exact (h.goes ht).jump
    · exact h.goes hu
  unfinished hu := by
    rcases update_run_iff.1 hu with ⟨-, hx⟩ | ⟨-, hu⟩
    · cases hx
      exact h.unfinished ht
    · exact h.unfinished hu

theorem ret (h : Orderly S tr c) (ht : c.thread t = .run id a (.ret v)) :
    Orderly S (tr ++ [.ret t id a v]) ⟨c.shared, Function.update c.thread t .idle, c.fresh⟩ where
  old e he := by
    rcases List.mem_append.1 he with he | he
    · exact h.old e he
    · obtain rfl := List.mem_singleton.1 he
      exact h.lt ht
  lt hu := by
    rcases update_run_iff.1 hu with ⟨-, hx⟩ | ⟨-, hu⟩
    · cases hx
    · exact h.lt hu
  inj hu hw := by
    rcases update_run_iff.1 hu with ⟨-, hx⟩ | ⟨-, hu⟩
    · cases hx
    rcases update_run_iff.1 hw with ⟨-, hx⟩ | ⟨-, hw⟩
    · cases hx
    exact h.inj hu hw
  called hu := by
    rcases update_run_iff.1 hu with ⟨-, hx⟩ | ⟨-, hu⟩
    · cases hx
    · exact List.mem_append_left _ (h.called hu)
  goes hu := by
    rcases update_run_iff.1 hu with ⟨-, hx⟩ | ⟨hne, hu⟩
    · cases hx
    · rw [opsOf_snoc_other (h.id_ne ht hu hne)]
      exact h.goes hu
  unfinished hu w b v' hret := by
    rcases update_run_iff.1 hu with ⟨-, hx⟩ | ⟨hne, hu⟩
    · cases hx
    rcases List.mem_append.1 hret with hret | hret
    · exact h.unfinished hu w b v' hret
    · cases List.mem_singleton.1 hret
      exact h.id_ne ht hu hne rfl

end Orderly

/-- The history of every run is in order. -/
theorem Run.orderly (h : Run S (.start s₀) tr c) : Orderly S tr c := by
  induction h with
  | refl => exact .start
  | @tail tr c e c' _ hs ih =>
    cases hs with
    | call _ _ => exact ih.call _ _
    | op ht _ => exact ih.op ht _ _
    | jump ht =>
      rw [Option.toList_none, List.append_nil]
      exact ih.jump ht
    | ret ht => exact ih.ret ht
    | env _ =>
      rw [Option.toList_none, List.append_nil]
      exact ⟨ih.old, ih.lt, ih.inj, ih.called, ih.goes, ih.unfinished⟩

theorem Run.new (h : Run S (.start s₀) (tr₁ ++ .call t id a :: tr₂) c) : ∀ e ∈ tr₁, e.id < id := by
  obtain ⟨c₁, c₂, h₁, hs, -⟩ := h.split rfl
  cases hs with
  | call _ _ => exact h₁.orderly.old

/-- Whatever a call does, it has been made and has not returned. -/
theorem Run.called {e : Event Op Res Tid Call Ret} (h : Run S (.start s₀) (tr₁ ++ e :: tr₂) c)
    (he : ∀ u j b, e ≠ .call u j b) :
    ∃ b, .call e.thread e.id b ∈ tr₁ ∧ (∀ t id a o r, e = .op t id a o r → b = a) ∧
      (∀ t id a v, e = .ret t id a v → b = a) ∧ ∀ u a v, .ret u e.id a v ∉ tr₁ := by
  obtain ⟨c₁, c₂, h₁, hs, -⟩ := h.split rfl
  cases hs with
  | call _ _ => exact absurd rfl (he _ _ _)
  | @op t id a o k r s' ht _ =>
    refine ⟨a, h₁.orderly.called ht, ?_, ?_, h₁.orderly.unfinished ht⟩
    · intro _ _ _ _ _ he
      cases he
      rfl
    · intro _ _ _ _ he
      cases he
  | @ret t id a v ht =>
    refine ⟨a, h₁.orderly.called ht, ?_, ?_, h₁.orderly.unfinished ht⟩
    · intro _ _ _ _ _ he
      cases he
    · intro _ _ _ _ he
      cases he
      rfl

theorem Run.op_called {o : Op} {r : Res o} (h : Run S (.start s₀) tr c)
    (ho : .op t id a o r ∈ tr) : .call t id a ∈ tr := by
  obtain ⟨tr₁, tr₂, rfl⟩ := List.append_of_mem ho
  obtain ⟨b, hb, hop, -, -⟩ := h.called (fun _ _ _ he => by cases he)
  obtain rfl := hop _ _ _ _ _ rfl
  exact List.mem_append_left _ hb

theorem Run.call_unique (h : Run S (.start s₀) tr c) (ha : .call t id a ∈ tr)
    (hb : .call u id b ∈ tr) : t = u ∧ a = b := by
  obtain ⟨tr₁, tr₂, rfl⟩ := List.append_of_mem ha
  rcases List.mem_append.1 hb with hb | hb
  · exact absurd (h.new _ hb) (Nat.lt_irrefl _)
  rcases List.mem_cons.1 hb with hb | hb
  · cases hb
    exact ⟨rfl, rfl⟩
  · obtain ⟨tr₃, tr₄, rfl⟩ := List.append_of_mem hb
    rw [← List.cons_append, ← List.append_assoc] at h
    have hlt := h.new (.call t id a) (List.mem_append_right _ (List.mem_cons_self ..))
    exact absurd hlt (Nat.lt_irrefl _)

theorem Run.ret_called (h : Run S (.start s₀) tr c) (hr : .ret t id a v ∈ tr) :
    .call t id a ∈ tr := by
  obtain ⟨tr₁, tr₂, rfl⟩ := List.append_of_mem hr
  obtain ⟨b, hb, -, hret, -⟩ := h.called (fun _ _ _ he => by cases he)
  obtain rfl := hret _ _ _ _ rfl
  exact List.mem_append_left _ hb

theorem Run.claim_of_ret {π : Type} {take : (o : Op) → Res o → Option π} {d : Claim Tid Call π}
    (h : Run S (.start s₀) tr c) (hr : .ret t d.id a v ∈ tr) (hd : d ∈ claims take tr) :
    d.thread = t ∧ d.call = a := by
  obtain ⟨o, r, he, -⟩ := exists_op_of_mem_claims hd
  exact h.call_unique (h.op_called he) (h.ret_called hr)

theorem Run.over (h : Run S (.start s₀) (tr₁ ++ .ret t id a v :: tr₂) c) :
    ∀ e ∈ tr₂, e.id ≠ id := by
  rintro e he rfl
  obtain ⟨tr₃, tr₄, rfl⟩ := List.append_of_mem he
  rw [← List.cons_append, ← List.append_assoc] at h
  have hret : .ret t e.id a v ∈ tr₁ ++ .ret t e.id a v :: tr₃ :=
    List.mem_append_right _ (List.mem_cons_self ..)
  cases e with
  | call u j b => exact absurd (h.new _ hret) (Nat.lt_irrefl _)
  | op u j b o r =>
    obtain ⟨-, -, -, -, hno⟩ := h.called (fun _ _ _ he => by cases he)
    exact hno t a v hret
  | ret u j b w =>
    obtain ⟨-, -, -, -, hno⟩ := h.called (fun _ _ _ he => by cases he)
    exact hno t a v hret

theorem Run.ret_once (h : Run S (.start s₀) (tr ++ [.ret t id a v]) c) (v' : Ret) :
    .ret u id b v' ∉ tr := by
  intro hmem
  obtain ⟨tr₁, tr₂, rfl⟩ := List.append_of_mem hmem
  rw [List.append_assoc, List.cons_append] at h
  exact h.over (.ret t id a v) (List.mem_append_right _ (List.mem_singleton_self _)) rfl

/-- A call in progress has gone along its program. -/
theorem Run.goes {p : Prog Op Res Lbl Ret} (h : Run S (.start s₀) tr c)
    (ht : c.thread t = .run id a p) : Prog.Goes S.code (S.body a) (opsOf id tr) p :=
  h.orderly.goes ht

/-- A call that returns has gone along its program to the value. -/
theorem Run.returned (h : Run S (.start s₀) (tr₁ ++ .ret t id a v :: tr₂) c) :
    Prog.Goes S.code (S.body a) (opsOf id tr₁) (.ret v) := by
  obtain ⟨c₁, c₂, h₁, hs, -⟩ := h.split rfl
  cases hs with
  | ret ht => exact h₁.goes ht

theorem Run.takes {S : Sys Op Res Empty Tid Call Ret σ} {c : Config Op Res Empty Tid Call Ret σ}
    (h : Run S (.start s₀) (tr₁ ++ .ret t id a v :: tr₂) c) :
    (S.body a).Takes (opsOf id tr₁) v := by
  have hv : (.ret v : Prog Op Res Empty Ret).Takes [] v := ⟨rfl, rfl⟩
  rw [← List.append_nil (opsOf id tr₁)]
  exact h.returned.takes hv

/-! ## Calls of which there is one at a time -/

/-- A call goes on until it returns. -/
theorem Run.stays {p : Prog Op Res Lbl Ret} (h : Run S c tr c') (ht : c.thread t = .run id a p)
    (hret : ∀ u b v, .ret u id b v ∉ tr) : ∃ p', c'.thread t = .run id a p' := by
  induction h with
  | refl => exact ⟨p, ht⟩
  | @tail tr c₁ e c₂ _ hs ih =>
    obtain ⟨p', ht'⟩ := ih fun u b v hv => hret u b v (List.mem_append_left _ hv)
    cases hs with
    | @call u b hu _ =>
      have hne : t ≠ u := by
        rintro rfl
        rw [ht'] at hu
        cases hu
      exact ⟨p', (Function.update_of_ne hne ..).trans ht'⟩
    | @op u j b o k r s' hu _ =>
      by_cases hne : t = u
      · subst hne
        rw [ht'] at hu
        cases hu
        exact ⟨_, Function.update_self ..⟩
      · exact ⟨p', (Function.update_of_ne hne ..).trans ht'⟩
    | @jump u j b l hu =>
      by_cases hne : t = u
      · subst hne
        rw [ht'] at hu
        cases hu
        exact ⟨_, Function.update_self ..⟩
      · exact ⟨p', (Function.update_of_ne hne ..).trans ht'⟩
    | @ret u j b v hu =>
      by_cases hne : t = u
      · subst hne
        rw [ht'] at hu
        cases hu
        exact absurd (List.mem_append_right _ (List.mem_singleton_self _)) (hret t a v)
      · exact ⟨p', (Function.update_of_ne hne ..).trans ht'⟩
    | env _ => exact ⟨p', ht'⟩

/-- In every reachable configuration there is at most one call of kind `K`. -/
def Sys.OneAtATime (S : Sys Op Res Lbl Tid Call Ret σ) (s₀ : σ) (K : Call → Prop) : Prop :=
  ∀ {tr c}, Run S (.start s₀) tr c → ∀ {t u id j a b p q}, c.thread t = .run id a p →
    c.thread u = .run j b q → K a → K b → t = u

variable {K : Call → Prop} {o o' : Op} {r : Res o} {r' : Res o'}
  {tr₃ : List (Event Op Res Tid Call Ret)}

/-- Between two operations of a call of kind `K` no other call of this kind does anything. -/
theorem Run.exclusive (hone : S.OneAtATime s₀ K)
    (h : Run S (.start s₀) ((tr₁ ++ .op t id a o r :: tr₂) ++ .op t id a o' r' :: tr₃) c)
    (ha : K a) {u : Tid} {j : Nat} {b : Call} {o'' : Op} {r'' : Res o''}
    (hb : .op u j b o'' r'' ∈ tr₂) (hk : K b) : j = id := by
  obtain ⟨-, -, -, -, hno⟩ := h.called (fun _ _ _ he => by cases he)
  obtain ⟨tr₄, tr₅, rfl⟩ := List.append_of_mem hb
  have h' : Run S (.start s₀) (tr₁ ++ .op t id a o r ::
      (tr₄ ++ .op u j b o'' r'' :: (tr₅ ++ .op t id a o' r' :: tr₃))) c := by simpa using h
  obtain ⟨c₁, c₂, h₁, hs, h₂⟩ := h'.split rfl
  obtain ⟨c₃, c₄, h₃, hs', -⟩ := h₂.split rfl
  cases hs with
  | op ht _ =>
    have hstay := h₃.stays (Function.update_self ..) fun w d v hv => hno w d v (by simp [hv])
    obtain ⟨p', ht'⟩ := hstay
    have hreach := (h₁.trans (.single (.op ht ‹_›))).trans h₃
    cases hs' with
    | op hu _ =>
      obtain rfl := hone hreach ht' hu ha hk
      rw [ht'] at hu
      cases hu
      rfl

omit [DecidableEq Tid] in
theorem claims_cons {π : Type} (take : (o : Op) → Res o → Option π)
    (e : Event Op Res Tid Call Ret) (tr : List (Event Op Res Tid Call Ret)) :
    claims take (e :: tr) = claims take [e] ++ claims take tr := by
  rw [← List.singleton_append, claims_append]

/-- So what such calls claim once each is not claimed between an operation of a call and its own
claim. -/
theorem Run.claims_between {π : Type} {take : (o : Op) → Res o → Option π} {x : π}
    (hone : S.OneAtATime s₀ K)
    (h : Run S (.start s₀) ((tr₁ ++ .op t id a o r :: tr₂) ++ .op t id a o' r' :: tr₃) c)
    (hnodup : ((claims take ((tr₁ ++ .op t id a o r :: tr₂) ++ .op t id a o' r' :: tr₃)).map
      Claim.id).Nodup)
    (hK : ∀ d ∈ claims take ((tr₁ ++ .op t id a o r :: tr₂) ++ .op t id a o' r' :: tr₃), K d.call)
    (ho : take o r = none) (ho' : take o' r' = some x) :
    (claims take (tr₁ ++ .op t id a o r :: tr₂)).length = (claims take tr₁).length := by
  have hown : claims take ([.op t id a o' r'] : List (Event Op Res Tid Call Ret)) =
      [⟨t, id, a, x⟩] := by
    simp [claims, Event.claim?, ho']
  rw [claims_append, claims_append, claims_cons take _ tr₂, claims_cons take _ tr₃,
    hown] at hnodup hK
  have hnil : claims take tr₂ = [] := by
    refine List.eq_nil_iff_forall_not_mem.2 fun d hd => ?_
    obtain ⟨o'', r'', hop, -⟩ := exists_op_of_mem_claims hd
    -- It would be a second claim of the same call.
    have hid := h.exclusive hone (hK ⟨t, id, a, x⟩ (by simp)) hop (hK d (by simp [hd]))
    rw [List.map_append, List.nodup_append] at hnodup
    exact hnodup.2.2 d.id (List.mem_map_of_mem (by simp [hd])) id (by simp) hid
  rw [length_claims_insert ho, hnil, List.length_nil, Nat.add_zero]

end Conc
