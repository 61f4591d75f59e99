import RingBuf.Conc.Protocol

/-!
# Watching a system

Calls that only look at the shared state can be added to a system (`Sys.watch`): any thread that
is idle may make one at any time. The events of the other calls are what the system that is
watched has done (`watched`), and what its moves keep true stays true of them
(`Inductive.watch`).
-/

namespace Conc

variable {Op : Type} {Res : Op → Type} {Lbl Tid Call Look Ret Ans σ ρ κ : Type}

/-- The system `S` with the programs `look` as further calls. -/
def Sys.watch (S : Sys Op Res Lbl Tid Call Ret σ) (look : Look → Prog Op Res Lbl Ans) :
    Sys Op Res Lbl Tid (Call ⊕ Look) (Ret ⊕ Ans) σ where
  exec := S.exec
  env := S.env
  body
    | .inl c => S.body c >>= fun v => .ret (.inl v)
    | .inr q => look q >>= fun a => .ret (.inr a)
  code j := S.code j >>= fun v => .ret (.inl v)
  allow cur t
    | .inl c => S.allow (fun u => (cur u).bind Sum.getLeft?) t c
    | .inr _ => True

theorem Sys.watch_ofFun [DecidableEq Tid] {ex : Tid → (o : Op) → σ → Res o × σ}
    {body : Call → Prog Op Res Empty Ret} {allow : (Tid → Option Call) → Tid → Call → Prop}
    (look : Look → Prog Op Res Empty Ans) : (Sys.ofFun ex body allow).watch look =
      .ofFun ex ((Sys.ofFun ex body allow).watch look).body
        ((Sys.ofFun ex body allow).watch look).allow := by
  have hcode : ((Sys.ofFun ex body allow).watch look).code = Empty.elim := by
    funext j
    exact j.elim
  show Sys.mk _ _ _ ((Sys.ofFun ex body allow).watch look).code _ = _
  rw [hcode]
  rfl

/-- Calls that do not overlap, while other threads look. -/
theorem Run.watch_calls [DecidableEq Tid] {ex : Tid → (o : Op) → σ → Res o × σ}
    {body : Call → Prog Op Res Empty Ret} {allow : (Tid → Option Call) → Tid → Call → Prop}
    {look : Look → Prog Op Res Empty Ans} {th : Tid → Thread Op Res Empty (Call ⊕ Look) (Ret ⊕ Ans)}
    (cs : List (Tid × Call)) (hidle : ∀ x ∈ cs, th x.1 = .idle)
    (hth : ∀ u, (th u).call?.bind Sum.getLeft? = none)
    (ha : ∀ x ∈ cs, allow (fun _ => none) x.1 x.2) (n : Nat) (s : σ) :
    Run ((Sys.ofFun ex body allow).watch look) ⟨s, th, n⟩
      (seqTrace ex ((Sys.ofFun ex body allow).watch look).body
        (cs.map fun x => (x.1, .inl x.2)) n s)
      ⟨seqState ex ((Sys.ofFun ex body allow).watch look).body
        (cs.map fun x => (x.1, .inl x.2)) s, th, n + cs.length⟩ := by
  have hnone : (fun u => (th u).call?.bind Sum.getLeft?) = fun _ => none := funext hth
  have hlen : (cs.map fun x => (x.1, Sum.inl (β := Look) x.2)).length = cs.length :=
    List.length_map _
  rw [Sys.watch_ofFun, ← hlen]
  refine Run.calls _ (fun x hx => ?_) (fun x hx => ?_) n s
  · obtain ⟨y, hy, rfl⟩ := List.mem_map.1 hx
    exact hidle y hy
  · obtain ⟨y, hy, rfl⟩ := List.mem_map.1 hx
    show allow (fun u => (th u).call?.bind Sum.getLeft?) y.1 y.2
    rw [hnone]
    exact ha y hy

/-- The moves of both kinds of calls, side by side. -/
def Proto.watch (P : Proto Op Res Lbl Call Ret ρ) (K : Proto Op Res Lbl Look Ans κ) :
    Proto Op Res Lbl (Call ⊕ Look) (Ret ⊕ Ans) (ρ ⊕ κ) where
  start := Sum.map P.start K.start
  trans
    | .inl l, o, r, .inl l' => P.trans l o r l'
    | .inr k, o, r, .inr k' => K.trans k o r k'
    | _, _, _, _ => False
  final
    | .inl l, .inl v => P.final l v
    | .inr k, .inr a => K.final k a
    | _, _ => False
  entry j
    | .inl l => P.entry j l
    | .inr _ => False

variable {P : Proto Op Res Lbl Call Ret ρ} {K : Proto Op Res Lbl Look Ans κ}
  {S : Sys Op Res Lbl Tid Call Ret σ} {look : Look → Prog Op Res Lbl Ans} {s₀ : σ}

theorem Proto.wp_watch_left {p : Prog Op Res Lbl Ret} {l : ρ} (h : P.wp p P.final l) :
    (P.watch K).wp (p >>= fun v => .ret (.inl v)) (P.watch K).final (.inl l) := by
  induction p generalizing l with
  | ret a => exact h
  | op o k ih =>
    intro r
    obtain ⟨l', ht, hk⟩ := h r
    exact ⟨.inl l', ht, ih r hk⟩
  | jump j => exact h

theorem Proto.wp_watch_right (hentry : ∀ j k, ¬ K.entry j k) {p : Prog Op Res Lbl Ans} {k : κ}
    (h : K.wp p K.final k) :
    (P.watch K).wp (p >>= fun a => .ret (.inr a)) (P.watch K).final (.inr k) := by
  induction p generalizing k with
  | ret a => exact h
  | op o f ih =>
    intro r
    obtain ⟨k', ht, hk⟩ := h r
    exact ⟨.inr k', ht, ih r hk⟩
  | jump j => exact hentry j k h

theorem Proto.Follows.watch (hP : P.Follows S) (hentry : ∀ j k, ¬ K.entry j k)
    (hlook : ∀ q, K.wp (look q) K.final (K.start q)) : (P.watch K).Follows (S.watch look) where
  body
    | .inl c => Proto.wp_watch_left (hP.body c)
    | .inr q => Proto.wp_watch_right hentry (hlook q)
  code j l hl := by
    cases l with
    | inl l => exact Proto.wp_watch_left (hP.code j l hl)
    | inr k => exact hl.elim

/-! ## What the watched system has done -/

/-- The event of the watched system that an event is. -/
def Event.watched? : Event Op Res Tid (Call ⊕ Look) (Ret ⊕ Ans) → Option (Event Op Res Tid Call Ret)
  | .call t id (.inl c) => some (.call t id c)
  | .op t id (.inl c) o r => some (.op t id c o r)
  | .ret t id (.inl c) (.inl v) => some (.ret t id c v)
  | _ => none

/-- The history of the watched system. -/
def watched (tr : List (Event Op Res Tid (Call ⊕ Look) (Ret ⊕ Ans))) :
    List (Event Op Res Tid Call Ret) :=
  tr.filterMap Event.watched?

@[simp] theorem watched_append (tr tr' : List (Event Op Res Tid (Call ⊕ Look) (Ret ⊕ Ans))) :
    watched (tr ++ tr') = watched tr ++ watched tr' := List.filterMap_append

theorem watched_snoc (tr : List (Event Op Res Tid (Call ⊕ Look) (Ret ⊕ Ans)))
    (e : Event Op Res Tid (Call ⊕ Look) (Ret ⊕ Ans)) :
    watched (tr ++ [e]) = watched tr ∨ ∃ e', watched (tr ++ [e]) = watched tr ++ [e'] := by
  cases he : e.watched? with
  | none => exact .inl (by simp [watched, he])
  | some e' => exact .inr ⟨e', by simp [watched, he]⟩

/-- The role of a call of the watched system. -/
def Active.watched? : Active (Call ⊕ Look) (ρ ⊕ κ) → Option (Active Call ρ)
  | ⟨id, .inl c, .inl l⟩ => some ⟨id, c, l⟩
  | _ => none

/-- The roles of the threads in the watched system. -/
def Roles.watched (R : Roles Tid (Call ⊕ Look) (ρ ⊕ κ)) : Roles Tid Call ρ :=
  fun t => (R t).bind Active.watched?

/-- The roles of the calls are those of their kind. -/
def Matched (R : Roles Tid (Call ⊕ Look) (ρ ⊕ κ)) : Prop :=
  ∀ t a, R t = some a → a.call.isLeft = a.role.isLeft

variable {R : Roles Tid (Call ⊕ Look) (ρ ⊕ κ)}
  {tr : List (Event Op Res Tid (Call ⊕ Look) (Ret ⊕ Ans))} {n : Nat}

theorem mem_of_mem_watched {e : Event Op Res Tid Call Ret} (h : e ∈ watched tr) :
    ∃ e' ∈ tr, e'.id = e.id := by
  obtain ⟨e', he', hw⟩ := List.mem_filterMap.1 h
  refine ⟨e', he', ?_⟩
  cases e' with
  | call t id c =>
    cases c with
    | inl c =>
      obtain rfl := Option.some.inj hw
      rfl
    | inr q => cases hw
  | op t id c o r =>
    cases c with
    | inl c =>
      obtain rfl := Option.some.inj hw
      rfl
    | inr q => cases hw
  | ret t id c v =>
    cases c with
    | inl c =>
      cases v with
      | inl v =>
        obtain rfl := Option.some.inj hw
        rfl
      | inr a => cases hw
    | inr q => cases hw

theorem Active.watched_some {a : Active (Call ⊕ Look) (ρ ⊕ κ)} {b : Active Call ρ}
    (h : a.watched? = some b) : a.id = b.id ∧ a.call = .inl b.call ∧ a.role = .inl b.role := by
  obtain ⟨id, c, l⟩ := a
  cases c with
  | inl c =>
    cases l with
    | inl l =>
      obtain rfl := Option.some.inj h
      exact ⟨rfl, rfl, rfl⟩
    | inr k => cases h
  | inr q => cases h

theorem Ids.watched (h : Ids n tr R) : Ids n (Conc.watched tr) R.watched where
  history e he := by
    obtain ⟨e', he', hid⟩ := mem_of_mem_watched he
    rw [← hid]
    exact h.history e' he'
  active t a ha := by
    obtain ⟨b, hb, hw⟩ := Option.bind_eq_some_iff.1 ha
    rw [← (Active.watched_some hw).1]
    exact h.active t b hb
  inj t u a b ha hb he := by
    obtain ⟨x, hx, hxa⟩ := Option.bind_eq_some_iff.1 ha
    obtain ⟨y, hy, hyb⟩ := Option.bind_eq_some_iff.1 hb
    refine h.inj t u x y hx hy ?_
    rw [(Active.watched_some hxa).1, (Active.watched_some hyb).1]
    exact he

/-- The calls in progress of the watched system. -/
theorem Matched.call (h : Matched R) (t : Tid) :
    (R.watched t).map Active.call = ((R t).map Active.call).bind Sum.getLeft? := by
  rw [Roles.watched]
  cases ht : R t with
  | none => rfl
  | some a =>
    have hm := h t a ht
    obtain ⟨id, c, l⟩ := a
    cases c with
    | inl c =>
      cases l with
      | inl l => rfl
      | inr k => cases hm
    | inr q => rfl

variable [DecidableEq Tid]

theorem Roles.watched_update (t : Tid) (y : Option (Active (Call ⊕ Look) (ρ ⊕ κ))) :
    Roles.watched (Function.update R t y) =
      Function.update R.watched t (y.bind Active.watched?) := by
  funext u
  by_cases hu : u = t
  · subst hu
    rw [Roles.watched, Function.update_self, Function.update_self]
  · rw [Roles.watched, Function.update_of_ne hu, Function.update_of_ne hu]
    rfl

/-- A call that looks is not one of the watched system. -/
theorem Roles.watched_update_none {t : Tid} {y : Option (Active (Call ⊕ Look) (ρ ⊕ κ))}
    (ht : R.watched t = none) (hy : y.bind Active.watched? = none) :
    Roles.watched (Function.update R t y) = R.watched := by
  rw [watched_update, hy, ← ht, Function.update_eq_self]

theorem matched_inductive {A : List (Event Op Res Tid (Call ⊕ Look) (Ret ⊕ Ans)) → σ →
    Roles Tid (Call ⊕ Look) (ρ ⊕ κ) → Prop} :
    InductiveUnder (P.watch K) (S.watch look) s₀ A fun _ _ R => Matched R := by
  refine roles_inductive (fun (c : Call ⊕ Look) (l : ρ ⊕ κ) => c.isLeft = l.isLeft) (fun c => ?_)
    fun {c l o r l'} hm hc => ?_
  · cases c <;> rfl
  · rw [hc]
    cases l with
    | inl l =>
      cases l' with
      | inl l' => rfl
      | inr k' => exact (hm : False).elim
    | inr k =>
      cases l' with
      | inl l' => exact (hm : False).elim
      | inr k' => rfl

variable {I : List (Event Op Res Tid Call Ret) → σ → Roles Tid Call ρ → Prop}

/-- **What the moves of the watched system keep true stays true**, if the other calls only look. -/
theorem Inductive.watch (h : Inductive P S s₀ I)
    (hlook : ∀ {k o r k' t s s'}, K.trans k o r k' → S.exec t o s r s' → s' = s) :
    Inductive (P.watch K) (S.watch look) s₀ fun tr s R =>
      Matched R ∧ I (watched tr) s R.watched := by
  refine InductiveUnder.and matched_inductive ?_
  -- A call that looks leaves the watched system where it was.
  have still {tr : List (Event Op Res Tid (Call ⊕ Look) (Ret ⊕ Ans))} {s : σ}
      {R : Roles Tid (Call ⊕ Look) (ρ ⊕ κ)} {t : Tid}
      {e : Event Op Res Tid (Call ⊕ Look) (Ret ⊕ Ans)}
      {y : Option (Active (Call ⊕ Look) (ρ ⊕ κ))} (hI : I (watched tr) s R.watched)
      (he : e.watched? = none) (ht : R.watched t = none) (hy : y.bind Active.watched? = none) :
      I (watched (tr ++ [e])) s (Roles.watched (Function.update R t y)) := by
    have htr : watched (tr ++ [e]) = watched tr := by simp [watched, he]
    rw [htr, Roles.watched_update_none ht hy]
    exact hI
  refine ⟨fun _ => h.init trivial, fun {tr s R t id c} hid hM hI ht ha _ => ?_,
    fun {n tr s R t id c l o r l' s'} hid hM hI ht hm he _ => ?_,
    fun {n tr s R t id c l v} hid hM hI ht hf _ => ?_,
    fun _ hI he _ => h.env trivial hI he trivial⟩
  · have htw : R.watched t = none := by rw [Roles.watched, ht]; rfl
    cases c with
    | inl c =>
      rw [watched_append, Roles.watched_update]
      refine h.call hid.watched trivial hI htw ?_ trivial
      have ha' : S.allow (fun u => ((R u).map Active.call).bind Sum.getLeft?) t c := ha
      simpa only [hM.call] using ha'
    | inr q => exact still hI rfl htw rfl
  · have hmatch := hM t _ ht
    cases c with
    | inl c =>
      cases l with
      | inl l =>
        cases l' with
        | inl l' =>
          have htw : R.watched t = some ⟨id, c, l⟩ := by rw [Roles.watched, ht]; rfl
          rw [watched_append, Roles.watched_update]
          exact h.op hid.watched trivial hI htw hm he trivial
        | inr k' => exact (hm : False).elim
      | inr k => cases hmatch
    | inr q =>
      cases l with
      | inl l => cases hmatch
      | inr k =>
        cases l' with
        | inl l' => exact (hm : False).elim
        | inr k' =>
          obtain rfl := hlook hm he
          exact still hI rfl (by rw [Roles.watched, ht]; rfl) rfl
  · have hmatch := hM t _ ht
    cases c with
    | inl c =>
      cases l with
      | inl l =>
        cases v with
        | inl v =>
          have htw : R.watched t = some ⟨id, c, l⟩ := by rw [Roles.watched, ht]; rfl
          rw [watched_append, Roles.watched_update]
          exact h.ret hid.watched trivial hI htw hf trivial
        | inr a => exact (hf : False).elim
      | inr k => cases hmatch
    | inr q =>
      cases l with
      | inl l => cases hmatch
      | inr k => exact still hI rfl (by rw [Roles.watched, ht]; rfl) rfl

end Conc
