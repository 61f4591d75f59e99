import RingBuf.Conc.Protocol
import Mathlib.Data.List.Nodup

/-!
# Claims: operations by which a call takes something

Some operations, depending on their answer, take something for the call that performs them: a
successful compare-exchange takes a position, a store of a counter publishes an element. The
history lists these claims in their order (`claims`). A protocol in which no call can take
twice makes a claim recognisable by its call (`Once`).

* `once_inductive`: the claims have different identifiers, and a role knows its call's claim.
* `held_inductive`: a role knows what its call has claimed and not yet given up.
-/

namespace Conc

variable {Op : Type} {Res : Op → Type} {Lbl Tid Call Ret σ ρ π : Type}

/-- An operation that took `pos`, with the call that performed it. -/
structure Claim (Tid Call π : Type) where
  thread : Tid
  id : Nat
  call : Call
  pos : π

/-- The claim an event makes, where `take o r` is what operation `o` takes with the answer
`r`. -/
def Event.claim? (take : (o : Op) → Res o → Option π) :
    Event Op Res Tid Call Ret → Option (Claim Tid Call π)
  | .op t id c o r => (take o r).map (⟨t, id, c, ·⟩)
  | _ => none

/-- The claims of a history, in their order. -/
def claims (take : (o : Op) → Res o → Option π) (tr : List (Event Op Res Tid Call Ret)) :
    List (Claim Tid Call π) :=
  tr.filterMap (Event.claim? take)

section Claims

variable {take : (o : Op) → Res o → Option π} {tr tr' : List (Event Op Res Tid Call Ret)}
  {t : Tid} {id : Nat} {a : Call} {o : Op} {r : Res o} {p : π} {v : Ret}

@[simp] theorem claims_nil : claims take ([] : List (Event Op Res Tid Call Ret)) = [] := rfl

@[simp] theorem claims_append : claims take (tr ++ tr') = claims take tr ++ claims take tr' :=
  List.filterMap_append

theorem mem_claims_append {c : Claim Tid Call π} (h : c ∈ claims take tr)
    (tr' : List (Event Op Res Tid Call Ret)) : c ∈ claims take (tr ++ tr') := by
  rw [claims_append]
  exact List.mem_append_left _ h

theorem claims_snoc_call : claims take (tr ++ [.call t id a]) = claims take tr := by
  simp [claims, Event.claim?]

theorem claims_snoc_ret : claims take (tr ++ [.ret t id a v]) = claims take tr := by
  simp [claims, Event.claim?]

theorem claims_snoc_none (h : take o r = none) :
    claims take (tr ++ [.op t id a o r]) = claims take tr := by
  simp [claims, Event.claim?, h]

theorem claims_snoc_some (h : take o r = some p) :
    claims take (tr ++ [.op t id a o r]) = claims take tr ++ [⟨t, id, a, p⟩] := by
  simp [claims, Event.claim?, h]

/-- An event makes a claim of one kind at most. -/
theorem claims_snoc_or {π' : Type} {give : (o : Op) → Res o → Option π'}
    (h : ∀ o r, take o r = none ∨ give o r = none) (tr : List (Event Op Res Tid Call Ret))
    (e : Event Op Res Tid Call Ret) :
    claims take (tr ++ [e]) = claims take tr ∨ claims give (tr ++ [e]) = claims give tr := by
  cases e with
  | call t id a => exact .inl claims_snoc_call
  | op t id a o r => exact (h o r).imp claims_snoc_none claims_snoc_none
  | ret t id a v => exact .inl claims_snoc_ret

/-- An operation in the middle that takes nothing. -/
theorem length_claims_insert {tr₁ tr₂ : List (Event Op Res Tid Call Ret)} (h : take o r = none) :
    (claims take (tr₁ ++ .op t id a o r :: tr₂)).length =
      (claims take tr₁).length + (claims take tr₂).length := by
  simp [claims, Event.claim?, h]

/-- An operation in the middle that takes something. -/
theorem getElem?_claims {tr₁ tr₂ : List (Event Op Res Tid Call Ret)} (h : take o r = some p) :
    (claims take (tr₁ ++ .op t id a o r :: tr₂))[(claims take tr₁).length]? =
      some ⟨t, id, a, p⟩ := by
  simp [claims, Event.claim?, h]

theorem length_claims_le (tr' : List (Event Op Res Tid Call Ret)) :
    (claims take tr).length ≤ (claims take (tr ++ tr')).length := by
  rw [claims_append, List.length_append]
  exact Nat.le_add_right ..

theorem exists_op_of_mem_claims {c : Claim Tid Call π} (hc : c ∈ claims take tr) :
    ∃ o r, .op c.thread c.id c.call o r ∈ tr ∧ take o r = some c.pos := by
  obtain ⟨e, he, hec⟩ := List.mem_filterMap.1 hc
  cases e with
  | op t id a o r =>
    obtain ⟨p, hp, rfl⟩ := Option.map_eq_some_iff.1 hec
    exact ⟨o, r, he, hp⟩
  | _ => cases hec

theorem id_lt_of_mem_claims {n : Nat} {R : Roles Tid Call ρ} (hid : Ids n tr R)
    {c : Claim Tid Call π} (hc : c ∈ claims take tr) : c.id < n := by
  obtain ⟨o, r, he, -⟩ := exists_op_of_mem_claims hc
  exact hid.history _ he

end Claims

/-! ## Claims in order -/

/-- The claims are those of `0, 1, …, n - 1`, in this order; `num` reads a claim's number. -/
def Numbered (num : π → Nat) (cs : List (Claim Tid Call π)) (n : Nat) : Prop :=
  cs.map (fun c => num c.pos) = List.range n

namespace Numbered

variable {num : π → Nat} {cs : List (Claim Tid Call π)} {n k : Nat} {c d : Claim Tid Call π}

theorem nil : Numbered num ([] : List (Claim Tid Call π)) 0 := rfl

theorem length (h : Numbered num cs n) : cs.length = n := by
  simpa using congrArg List.length h

theorem snoc (h : Numbered num cs n) (hc : num c.pos = n) : Numbered num (cs ++ [c]) (n + 1) := by
  rw [Numbered, List.map_append, h, List.range_succ, List.map_singleton, hc]

theorem getElem? (h : Numbered num cs n) (hk : cs[k]? = some c) : num c.pos = k := by
  have hr := congrArg (·[k]?) h
  simp only [List.getElem?_map, hk, Option.map_some] at hr
  exact (List.getElem?_eq_some_iff.1 hr.symm).2.symm.trans (by simp)

theorem getElem?_of_mem (h : Numbered num cs n) (hc : c ∈ cs) : cs[num c.pos]? = some c := by
  obtain ⟨k, hk⟩ := List.mem_iff_getElem?.1 hc
  rw [h.getElem? hk, hk]

theorem lt (h : Numbered num cs n) (hc : c ∈ cs) : num c.pos < n := by
  have hm : num c.pos ∈ cs.map fun c => num c.pos := List.mem_map_of_mem hc
  rw [h] at hm
  exact List.mem_range.1 hm

/-- A number is claimed once. -/
theorem eq (h : Numbered num cs n) (hc : c ∈ cs) (hd : d ∈ cs) (he : num c.pos = num d.pos) :
    c = d :=
  List.inj_on_of_nodup_map (h ▸ List.nodup_range) hc hd he

theorem exists_mem (h : Numbered num cs n) (hk : k < n) : ∃ c ∈ cs, num c.pos = k := by
  have hm : k ∈ cs.map fun c => num c.pos := h ▸ List.mem_range.2 hk
  exact List.mem_map.1 hm

variable {take : (o : Op) → Res o → Option π} {tr : List (Event Op Res Tid Call Ret)}
  {t : Tid} {id : Nat} {a : Call} {o : Op} {r : Res o} {p : π}

theorem op_none (h : Numbered num (claims take tr) n) (ho : take o r = none) :
    Numbered num (claims take (tr ++ [.op t id a o r])) n := by
  rwa [claims_snoc_none ho]

theorem op_some (h : Numbered num (claims take tr) n) (ho : take o r = some p) (hp : num p = n) :
    Numbered num (claims take (tr ++ [.op t id a o r])) (n + 1) := by
  rw [claims_snoc_some ho]
  exact h.snoc hp

theorem pos_eq {tr₁ tr₂ : List (Event Op Res Tid Call Ret)}
    (h : Numbered num (claims take (tr₁ ++ .op t id a o r :: tr₂)) n) (ho : take o r = some p) :
    num p = (claims take tr₁).length :=
  h.getElem? (getElem?_claims ho)

end Numbered

/-- The `k`-th claim takes `pos k`. -/
def InOrder (pos : Nat → π) (cs : List (Claim Tid Call π)) : Prop :=
  ∀ k c, cs[k]? = some c → c.pos = pos k

theorem InOrder.nil {pos : Nat → π} : InOrder pos ([] : List (Claim Tid Call π)) := by
  intro k c hc
  simp at hc

theorem InOrder.snoc {pos : Nat → π} {cs : List (Claim Tid Call π)} (h : InOrder pos cs)
    {c : Claim Tid Call π} (hc : c.pos = pos cs.length) : InOrder pos (cs ++ [c]) := by
  intro k d hd
  rcases Nat.lt_trichotomy k cs.length with hlt | rfl | hgt
  · rw [List.getElem?_append_left hlt] at hd
    exact h k d hd
  · rw [List.getElem?_concat_length] at hd
    exact Option.some.inj hd ▸ hc
  · rw [List.getElem?_eq_none (by simpa [Nat.succ_le_iff] using hgt)] at hd
    cases hd

/-! ## Once per call -/

variable [DecidableEq Tid] {P : Proto Op Res Lbl Call Ret ρ} {S : Sys Op Res Lbl Tid Call Ret σ}
  {s₀ : σ} {A I : List (Event Op Res Tid Call Ret) → σ → Roles Tid Call ρ → Prop}

/-- No two claims belong to the same call, and a role `l` says with `taken l` what the call in
progress has taken. -/
structure Once (take : (o : Op) → Res o → Option π) (taken : ρ → Option π)
    (tr : List (Event Op Res Tid Call Ret)) (R : Roles Tid Call ρ) : Prop where
  nodup : ((claims take tr).map Claim.id).Nodup
  own : ∀ t a p, R t = some a → taken a.role = some p → ⟨t, a.id, a.call, p⟩ ∈ claims take tr
  other : ∀ t a, R t = some a → taken a.role = none → ∀ c ∈ claims take tr, c.id ≠ a.id

section Once

variable {take : (o : Op) → Res o → Option π} {taken : ρ → Option π}
  {tr tr' : List (Event Op Res Tid Call Ret)} {R : Roles Tid Call ρ}

omit [DecidableEq Tid] in
theorem Once.eq (h : Once take taken tr R) {c d : Claim Tid Call π} (hc : c ∈ claims take tr)
    (hd : d ∈ claims take tr) (hid : c.id = d.id) : c = d :=
  List.inj_on_of_nodup_map h.nodup hc hd hid

theorem Once.keep (h : Once take taken tr R) (htr : claims take tr' = claims take tr) {t : Tid}
    {y : Option (Active Call ρ)}
    (hown : ∀ b p, y = some b → taken b.role = some p → ⟨t, b.id, b.call, p⟩ ∈ claims take tr)
    (hnone : ∀ b, y = some b → taken b.role = none → ∀ c ∈ claims take tr, c.id ≠ b.id) :
    Once take taken tr' (Function.update R t y) := by
  refine ⟨htr ▸ h.nodup, fun u b p hb hp => ?_, fun u b hb hn => ?_⟩
  · rw [htr]
    rcases update_some_iff.1 hb with ⟨rfl, hy⟩ | ⟨-, hb⟩
    · exact hown b p hy hp
    · exact h.own u b p hb hp
  · rw [htr]
    rcases update_some_iff.1 hb with ⟨-, hb⟩ | ⟨-, hb⟩
    · exact hnone b hb hn
    · exact h.other u b hb hn

theorem Once.add {n : Nat} (hid : Ids n tr R) (h : Once take taken tr R) {t : Tid} {id : Nat}
    {a : Call} {l l' : ρ} {p : π} (ht : R t = some ⟨id, a, l⟩) (hl : taken l = none)
    (hl' : taken l' = some p) (htr : claims take tr' = claims take tr ++ [⟨t, id, a, p⟩]) :
    Once take taken tr' (Function.update R t (some ⟨id, a, l'⟩)) := by
  have hnew : ∀ c ∈ claims take tr, c.id ≠ id := h.other t _ ht hl
  refine ⟨?_, fun u b q hb hq => ?_, fun u b hb hn c hc => ?_⟩
  · rw [htr, List.map_append, List.nodup_append]
    refine ⟨h.nodup, List.nodup_singleton _, fun i hi j hj => ?_⟩
    obtain ⟨c, hc, rfl⟩ := List.mem_map.1 hi
    obtain rfl := List.mem_singleton.1 hj
    exact hnew c hc
  · rw [htr, List.mem_append]
    rcases update_some_iff.1 hb with ⟨rfl, hy⟩ | ⟨-, hb⟩
    · obtain rfl := Option.some.inj hy
      obtain rfl : p = q := Option.some.inj (hl'.symm.trans hq)
      exact .inr (List.mem_singleton_self _)
    · exact .inl (h.own u b q hb hq)
  · rw [htr, List.mem_append] at hc
    rcases update_some_iff.1 hb with ⟨-, hb⟩ | ⟨hu, hb⟩
    · obtain rfl := Option.some.inj hb
      simp [hl'] at hn
    · rcases hc with hc | hc
      · exact h.other u b hb hn c hc
      · obtain rfl := List.mem_singleton.1 hc
        exact fun he => hu (hid.inj _ _ _ _ ht hb he).symm

end Once

/-- A protocol allows each call at most one claim, if a move that takes something starts from a
role that has nothing. -/
theorem once_inductive (take : (o : Op) → Res o → Option π) (taken : ρ → Option π)
    (hstart : ∀ a, taken (P.start a) = none)
    (hkeep : ∀ {l o r l'}, P.trans l o r l' → take o r = none → taken l' = taken l)
    (htake : ∀ {l o r l' p}, P.trans l o r l' → take o r = some p →
      taken l = none ∧ taken l' = some p) :
    InductiveUnder P S s₀ A fun tr _ R => Once take taken tr R where
  init _ := ⟨List.nodup_nil, by simp, by simp⟩
  call hid _ h ht _ _ := by
    refine h.keep claims_snoc_call (fun b p hb hp => ?_) (fun b hb _ c hc => ?_)
    · obtain rfl := Option.some.inj hb
      simp [hstart] at hp
    · obtain rfl := Option.some.inj hb
      exact Nat.ne_of_lt (id_lt_of_mem_claims hid hc)
  op {n tr s R t id a l o r l' s'} hid _ h ht hm _ _ := by
    cases hp : take o r with
    | none =>
      have hl := hkeep hm hp
      refine h.keep (claims_snoc_none hp) (fun b p hb hbp => ?_) (fun b hb hn => ?_)
      · obtain rfl := Option.some.inj hb
        exact h.own t ⟨id, a, l⟩ p ht (hl.symm.trans hbp)
      · obtain rfl := Option.some.inj hb
        exact h.other t ⟨id, a, l⟩ ht (hl.symm.trans hn)
    | some p =>
      obtain ⟨hl, hl'⟩ := htake hm hp
      exact h.add hid ht hl hl' (claims_snoc_some hp)
  ret _ _ h _ _ _ := h.keep claims_snoc_ret (by simp) (by simp)
  env _ h _ _ := h

/-! ## Holding what was claimed -/

/-- Call `id` of thread `t` has taken `p` and has performed no operation of `drop` since. -/
def Holds (take : (o : Op) → Res o → Option π) (drop : Op → Bool)
    (tr : List (Event Op Res Tid Call Ret)) (t : Tid) (id : Nat) (p : π) : Prop :=
  ∃ tr₁ a o r tr₂, tr = tr₁ ++ .op t id a o r :: tr₂ ∧ take o r = some p ∧
    ∀ a' o' r', .op t id a' o' r' ∈ tr₂ → drop o' = false

section Holds

variable {take : (o : Op) → Res o → Option π} {drop : Op → Bool}
  {tr : List (Event Op Res Tid Call Ret)} {t : Tid} {id : Nat} {p : π}

omit [DecidableEq Tid] in
theorem holds_snoc {e : Event Op Res Tid Call Ret} :
    Holds take drop (tr ++ [e]) t id p ↔
      (∃ a o r, e = .op t id a o r ∧ take o r = some p) ∨
      (Holds take drop tr t id p ∧ ∀ a o r, e = .op t id a o r → drop o = false) := by
  constructor
  · rintro ⟨tr₁, a, o, r, tr₂, htr, hp, hd⟩
    rcases List.eq_nil_or_concat tr₂ with rfl | ⟨tr₂, e₂, rfl⟩
    · obtain ⟨rfl, he⟩ := List.append_inj' htr rfl
      exact .inl ⟨a, o, r, by simpa using he, hp⟩
    · have htr' : tr ++ [e] = (tr₁ ++ .op t id a o r :: tr₂) ++ [e₂] := by simpa using htr
      obtain ⟨rfl, he⟩ := List.append_inj' htr' rfl
      obtain rfl : e = e₂ := by simpa using he
      refine .inr ⟨⟨tr₁, a, o, r, tr₂, rfl, hp, fun a' o' r' h => ?_⟩, fun a' o' r' h => ?_⟩
      · exact hd a' o' r' (by simp [h])
      · exact hd a' o' r' (by simp [h])
  · rintro (⟨a, o, r, rfl, hp⟩ | ⟨⟨tr₁, a, o, r, tr₂, rfl, hp, hd⟩, he⟩)
    · exact ⟨tr, a, o, r, [], rfl, hp, by simp⟩
    · refine ⟨tr₁, a, o, r, tr₂ ++ [e], by simp, hp, fun a' o' r' h => ?_⟩
      rcases List.mem_append.1 h with h | h
      · exact hd a' o' r' h
      · exact he a' o' r' (List.mem_singleton.1 h).symm

omit [DecidableEq Tid] in
theorem holds_snoc_of_ne {e : Event Op Res Tid Call Ret} (he : ∀ a o r, e ≠ .op t id a o r) :
    Holds take drop (tr ++ [e]) t id p ↔ Holds take drop tr t id p := by
  rw [holds_snoc]
  constructor
  · rintro (⟨a, o, r, h, -⟩ | ⟨h, -⟩)
    · exact absurd h (he a o r)
    · exact h
  · intro h
    exact .inr ⟨h, fun a o r ho => absurd ho (he a o r)⟩

omit [DecidableEq Tid] in
theorem holds_snoc_op {a : Call} {o : Op} {r : Res o} :
    Holds take drop (tr ++ [.op t id a o r]) t id p ↔
      take o r = some p ∨ (Holds take drop tr t id p ∧ drop o = false) := by
  rw [holds_snoc]
  constructor
  · rintro (⟨a', o', r', he, hp⟩ | ⟨h, hd⟩)
    · cases he
      exact .inl hp
    · exact .inr ⟨h, hd a o r rfl⟩
  · rintro (hp | ⟨h, hd⟩)
    · exact .inl ⟨a, o, r, rfl, hp⟩
    · refine .inr ⟨h, fun a' o' r' he => ?_⟩
      cases he
      exact hd

end Holds

/-- What `held` says of a role is what its call holds, if the moves that take and the moves that
drop are the ones that change it. -/
theorem held_inductive (take : (o : Op) → Res o → Option π) (drop : Op → Bool)
    (held : ρ → Option π) (hstart : ∀ a, held (P.start a) = none)
    (htake : ∀ {l o r l' p}, P.trans l o r l' → take o r = some p →
      held l = none ∧ held l' = some p)
    (hdrop : ∀ {l o r l'}, P.trans l o r l' → take o r = none → drop o = true → held l' = none)
    (hkeep : ∀ {l o r l'}, P.trans l o r l' → take o r = none → drop o = false →
      held l' = held l)
    (hfinal : ∀ {l v}, P.final l v → held l = none) :
    InductiveUnder P S s₀ A fun tr _ R => ∀ t id p,
      Holds take drop tr t id p ↔ ∃ a, R t = some a ∧ a.id = id ∧ held a.role = some p where
  init _ t id p := by simp [Holds]
  call {tr s R t id a} _ _ h ht _ _ u j p := by
    rw [holds_snoc_of_ne (by simp), h]
    by_cases hu : u = t
    · subst hu
      simp [ht, hstart]
    · simp [hu]
  op {n tr s R t id a l o r l' s'} _ _ h ht hm _ _ u j p := by
    by_cases hu : u = t
    · subst hu
      by_cases hj : j = id
      · subst hj
        have hl : Holds take drop tr u j p ↔ held l = some p := by simp [h, ht]
        have hl' : (∃ b, Function.update R u (some ⟨j, a, l'⟩) u = some b ∧ b.id = j ∧
            held b.role = some p) ↔ held l' = some p := by simp
        rw [holds_snoc_op, hl, hl']
        cases hr : take o r with
        | some q =>
          obtain ⟨hn, hs⟩ := htake hm hr
          simp [hn, hs]
        | none =>
          cases hd : drop o with
          | true => simp [hdrop hm hr hd]
          | false => simp [hkeep hm hr hd]
      · rw [holds_snoc_of_ne (by simp [Ne.symm hj]), h]
        simp [ht, Ne.symm hj]
    · rw [holds_snoc_of_ne (by simp [Ne.symm hu]), h]
      simp [hu]
  ret {n tr s R t id a l v} _ _ h ht hf _ u j p := by
    rw [holds_snoc_of_ne (by simp), h]
    by_cases hu : u = t
    · subst hu
      simp [ht, hfinal hf]
    · simp [hu]
  env _ h _ _ := h

/-! ## The claims of others during a call -/

section Others

/-- How many claims are by other threads than `t`. -/
def others (take : (o : Op) → Res o → Option π) (t : Tid) (tr : List (Event Op Res Tid Call Ret)) :
    Nat :=
  (claims take tr).countP fun c => c.thread ≠ t

/-- During no single call do the other threads make `n` claims. -/
def Calm (take : (o : Op) → Res o → Option π) (n : Nat) (tr : List (Event Op Res Tid Call Ret)) :
    Prop :=
  ∀ tr₁ t id a tr₂ tr₃, tr = tr₁ ++ .call t id a :: (tr₂ ++ tr₃) → (∀ v, .ret t id a v ∉ tr₂) →
    others take t tr₂ < n

/-- Where `saw l` is the value of a counter that a role remembers: during its call so far, the
counter has moved past it by no more than the claims of the other threads. -/
def Stale (take : (o : Op) → Res o → Option π) (saw : ρ → Option Nat)
    (tr : List (Event Op Res Tid Call Ret)) (count : Nat) (R : Roles Tid Call ρ) : Prop :=
  ∀ t a, R t = some a → ∃ tr₁ tr₂, tr = tr₁ ++ .call t a.id a.call :: tr₂ ∧
    (∀ v, .ret t a.id a.call v ∉ tr₂) ∧ ∀ w, saw a.role = some w → count ≤ w + others take t tr₂

variable {take : (o : Op) → Res o → Option π} {saw : ρ → Option Nat}
  {tr tr' : List (Event Op Res Tid Call Ret)} {R : Roles Tid Call ρ} {t u : Tid} {n id count : Nat}
  {a : Call} {l l' : ρ} {o : Op} {r : Res o} {v : Ret}

theorem others_le : others take t tr ≤ (claims take tr).length := List.countP_le_length

theorem others_mono (tr' : List (Event Op Res Tid Call Ret)) :
    others take t tr ≤ others take t (tr ++ tr') := by
  rw [others, others, claims_append, List.countP_append]
  exact Nat.le_add_right ..

theorem others_snoc_op (h : u ≠ t) :
    others take u (tr ++ [.op t id a o r]) = others take u tr + (take o r).toList.length := by
  cases ho : take o r with
  | none =>
    rw [others, claims_snoc_none ho]
    rfl
  | some p =>
    rw [others, claims_snoc_some ho, List.countP_append]
    simp [others, Ne.symm h]

theorem Calm.of_append (h : Calm take n (tr ++ tr')) : Calm take n tr := by
  intro tr₁ t id a tr₂ tr₃ htr hret
  refine h tr₁ t id a tr₂ (tr₃ ++ tr') ?_ hret
  rw [htr]
  simp

theorem calm_of_length (h : (claims take tr).length < n) : Calm take n tr := by
  intro tr₁ t id a tr₂ tr₃ htr _
  refine Nat.lt_of_le_of_lt others_le (Nat.lt_of_le_of_lt ?_ h)
  have htr' : tr = (tr₁ ++ [.call t id a]) ++ (tr₂ ++ tr₃) := by
    rw [htr]
    simp
  rw [htr', claims_append, claims_append, claims_append, List.length_append, List.length_append,
    List.length_append]
  omega

/-- In a calm run a thread does not remember a value that is far behind. -/
theorem Stale.lt (h : Stale take saw tr count R) (hc : Calm take n tr) (ht : R t = some ⟨id, a, l⟩)
    {w : Nat} (hw : saw l = some w) : count < w + n := by
  obtain ⟨tr₁, tr₂, htr, hret, hle⟩ := h t _ ht
  have hlt := hc tr₁ t id a tr₂ [] (by rw [htr, List.append_nil]) hret
  have hcount := hle w hw
  omega

theorem Stale.nil : Stale take saw ([] : List (Event Op Res Tid Call Ret)) count fun _ => none := by
  intro t a ha
  cases ha

/-- Another event leaves what a thread remembers, if it moves the counter by no more than it
claims. -/
theorem Stale.other {e : Event Op Res Tid Call Ret} {count' : Nat} (h : Stale take saw tr count R)
    {x : Active Call ρ} (hx : R u = some x) (he : ∀ v, e ≠ .ret u x.id x.call v)
    (hc : ∀ tr₂, count' + others take u tr₂ ≤ count + others take u (tr₂ ++ [e])) :
    ∃ tr₁ tr₂, tr ++ [e] = tr₁ ++ .call u x.id x.call :: tr₂ ∧
      (∀ v, .ret u x.id x.call v ∉ tr₂) ∧
      ∀ w, saw x.role = some w → count' ≤ w + others take u tr₂ := by
  obtain ⟨tr₁, tr₂, htr, hret, hle⟩ := h u x hx
  refine ⟨tr₁, tr₂ ++ [e], by rw [htr, List.append_assoc]; rfl, fun v hv => ?_, fun w hw => ?_⟩
  · rcases List.mem_append.1 hv with hv | hv
    · exact hret v hv
    · exact he v (List.mem_singleton.1 hv).symm
  · have := hle w hw
    have := hc tr₂
    omega

theorem Stale.call (h : Stale take saw tr count R) (ht : R t = none) (hl : saw l = none) :
    Stale take saw (tr ++ [.call t id a]) count (Function.update R t (some ⟨id, a, l⟩)) := by
  intro u x hx
  rcases update_some_iff.1 hx with ⟨rfl, hy⟩ | ⟨-, hy⟩
  · obtain rfl := Option.some.inj hy
    refine ⟨tr, [], rfl, fun v => List.not_mem_nil, fun w hw => ?_⟩
    cases hl.symm.trans hw
  · exact h.other hy (fun v he => nomatch he) fun tr₂ =>
      Nat.add_le_add_left (others_mono _) count

theorem Stale.op {count' : Nat} (h : Stale take saw tr count R) (ht : R t = some ⟨id, a, l⟩)
    (hc : count' ≤ count + (take o r).toList.length)
    (hl : ∀ w, saw l' = some w → count' ≤ w ∨ saw l = some w ∧ count' ≤ count) :
    Stale take saw (tr ++ [.op t id a o r]) count' (Function.update R t (some ⟨id, a, l'⟩)) := by
  intro u x hx
  rcases update_some_iff.1 hx with ⟨rfl, hy⟩ | ⟨hu, hy⟩
  · obtain rfl := Option.some.inj hy
    obtain ⟨tr₁, tr₂, htr, hret, hle⟩ := h u _ ht
    refine ⟨tr₁, tr₂ ++ [.op u id a o r], by rw [htr, List.append_assoc]; rfl, fun v hv => ?_,
      fun w hw => ?_⟩
    · rcases List.mem_append.1 hv with hv | hv
      · exact hret v hv
      · cases List.mem_singleton.1 hv
    · have hmono : others take u tr₂ ≤ others take u (tr₂ ++ [.op u id a o r]) := others_mono _
      rcases hl w hw with hw' | ⟨hw', hcount⟩
      · omega
      · have := hle w hw'
        omega
  · refine h.other hy (fun v he => nomatch he) fun tr₂ => ?_
    rw [others_snoc_op hu]
    omega

theorem Stale.ret (h : Stale take saw tr count R) (ht : R t = some ⟨id, a, l⟩) :
    Stale take saw (tr ++ [.ret t id a v]) count (Function.update R t none) := by
  intro u x hx
  rcases update_some_iff.1 hx with ⟨-, hy⟩ | ⟨hu, hy⟩
  · cases hy
  · refine h.other hy (fun v he => ?_) fun tr₂ => Nat.add_le_add_left (others_mono _) count
    cases he
    exact hu rfl

end Others

end Conc
