import Mathlib.Data.List.Induction
import RingBuf.Conc.Trail
import RingBuf.Query.Code
import RingBuf.Window

/-!
# What a query answers

A system whose counters are the words of two numbers that only grow, of elements pushed and popped
so far (`Counts`), is watched by queries. A query mixes the head of one moment with the tail of a
later one. Its answer is right if the tail has not passed the loaded head when it is loaded, for
`Is_empty_` if no push has slipped in before the pops that brought the tail there (`Steady`,
`Counts.right`).
-/

namespace RingBuf

open Conc Word LawfulWord

theorem exists_last_growth {α : Type} {f : List α → Nat} (hf : ∀ a b, f a ≤ f (a ++ b))
    (a b : List α) (h : f a < f (a ++ b)) :
    ∃ b₁ e b₂, b = b₁ ++ e :: b₂ ∧ f (a ++ b₁) < f (a ++ b) ∧ f (a ++ b₁ ++ [e]) = f (a ++ b) := by
  induction b using List.reverseRecOn with
  | nil =>
    rw [List.append_nil] at h
    exact absurd h (lt_irrefl _)
  | append_singleton b e ih =>
    rw [← List.append_assoc] at h ⊢
    by_cases hlt : f (a ++ b) < f (a ++ b ++ [e])
    · exact ⟨b, e, [], rfl, hlt, rfl⟩
    · have heq : f (a ++ b) = f (a ++ b ++ [e]) := Nat.le_antisymm (hf _ _) (Nat.not_lt.1 hlt)
      rw [← heq] at h ⊢
      obtain ⟨b₁, e', b₂, rfl, h₁, h₂⟩ := ih h
      exact ⟨b₁, e', b₂ ++ [e], by simp, h₁, h₂⟩

/-- An event of a system on the memory of a ring. -/
abbrev RingEv (Tid Call Ret : Type) := Event (Op SizeT) Op.Res Tid Call Ret

/-- The counters are the words of the numbers of elements pushed and popped. -/
structure Counters {Ev Tid : Type} (r : Ring SizeT) (pushed popped : List Ev → Nat) (tr : List Ev)
    (m : Mem SizeT Tid) : Prop where
  head : m.head = word (pushed tr)
  tail : m.tail = word (popped tr)
  le : popped tr ≤ pushed tr
  room : pushed tr ≤ popped tr + r.cap

variable {Tid Call Ret ρ : Type} [DecidableEq Tid] {r : Ring SizeT}
  {P : Proto (Op SizeT) Op.Res Empty Call Ret ρ}
  {S : Sys (Op SizeT) Op.Res Empty Tid Call Ret (Mem SizeT Tid)} {m₀ : Mem SizeT Tid}
  {pushed popped : List (RingEv Tid Call Ret) → Nat} {B : List (RingEv Tid Call Ret) → Prop}

/-- A system in which two numbers count the elements, in all histories of which `B` holds. -/
structure Counts (r : Ring SizeT) (P : Proto (Op SizeT) Op.Res Empty Call Ret ρ)
    (S : Sys (Op SizeT) Op.Res Empty Tid Call Ret (Mem SizeT Tid)) (m₀ : Mem SizeT Tid)
    (pushed popped : List (RingEv Tid Call Ret) → Nat) (B : List (RingEv Tid Call Ret) → Prop) :
    Prop where
  follows : P.Follows S
  exec_eq : ∀ {t o m x m'}, S.exec t o m x m' → exec t o m = (x, m')
  counters : ∃ I, Inductive P S m₀ I ∧ ∀ tr m R, I tr m R → B tr → Counters r pushed popped tr m
  pushed_le : ∀ tr tr', pushed tr ≤ pushed (tr ++ tr')
  popped_le : ∀ tr tr', popped tr ≤ popped (tr ++ tr')
  one : ∀ tr e, pushed (tr ++ [e]) = pushed tr ∨ popped (tr ++ [e]) = popped tr
  of_append : ∀ {tr tr'}, B (tr ++ tr') → B tr

/-! ## Steady queries -/

/-- An event of such a system when it is watched. -/
abbrev QueryEv (Tid Call Ret : Type) := RingEv Tid (Call ⊕ Query) (Ret ⊕ Answer)

/-- Query `q`, call `id` of thread `t`, has loaded the head after `tr₁` and the tail after
`tr₁ ++ tr₂`. -/
def Looked (tr tr₁ tr₂ : List (QueryEv Tid Call Ret)) (t : Tid) (id : Nat) (q : Query) : Prop :=
  ∃ h d tr₃, tr = tr₁ ++ .op t id (.inr q) .loadHead h :: tr₂ ++
    .op t id (.inr q) .loadTail d :: tr₃

/-- What other threads may do between the two loads. The tail must not pass the head that has been
loaded; for `isEmpty`, when it reaches it, no push may have been completed before the last pop. -/
def Query.Steady (pushed popped : List (RingEv Tid Call Ret) → Nat)
    (tr₁ tr₂ : List (QueryEv Tid Call Ret)) : Query → Prop
  | .isFull | .size => popped (watched (tr₁ ++ tr₂)) ≤ pushed (watched tr₁)
  | .isEmpty => popped (watched (tr₁ ++ tr₂)) < pushed (watched tr₁) + 2 ^ 64 ∧
    (popped (watched (tr₁ ++ tr₂)) = pushed (watched tr₁) →
      ∀ tr₃ tr₄, tr₂ = tr₃ ++ tr₄ →
        popped (watched (tr₁ ++ tr₃)) < popped (watched (tr₁ ++ tr₂)) →
        pushed (watched (tr₁ ++ tr₃)) = pushed (watched tr₁))
  | .capacity => True

/-- All queries of the history are steady. -/
def Steady (pushed popped : List (RingEv Tid Call Ret) → Nat) (tr : List (QueryEv Tid Call Ret)) :
    Prop :=
  ∀ tr₁ tr₂ t id q, Looked tr tr₁ tr₂ t id q → q.Steady pushed popped tr₁ tr₂

/-- At some moment of the call, `n` elements were in the ring. -/
def Held (pushed popped : List (RingEv Tid Call Ret) → Nat) (n : Nat)
    (tr : List (QueryEv Tid Call Ret)) (t : Tid) (id : Nat) : Prop :=
  Moment (fun tr => pushed (watched tr) = popped (watched tr) + n) tr t id

/-- What an answer must say. -/
def Query.Right (r : Ring SizeT) (pushed popped : List (RingEv Tid Call Ret) → Nat)
    (tr : List (QueryEv Tid Call Ret)) (t : Tid) (id : Nat) : Query → Answer → Prop
  | .size, v => ∃ n, v = .size n ∧ toNat n ≤ toNat r.objNum
  | .isFull, v => v = .bool true → Held pushed popped (toNat r.objNum) tr t id
  | .isEmpty, v => v = .bool true → Held pushed popped 0 tr t id
  | .capacity, v => v = .size r.objNum

/-- All answers of the history are right. -/
def Right (r : Ring SizeT) (pushed popped : List (RingEv Tid Call Ret) → Nat)
    (tr : List (QueryEv Tid Call Ret)) : Prop :=
  ∀ tr₁ tr₂ t id q v, tr = tr₁ ++ .ret t id (.inr q) v :: tr₂ →
    ∃ a, v = .inr a ∧ q.Right r pushed popped tr₁ t id a

/-! ## Every answer comes from its two loads -/

/-- The operations that lead to a role. -/
def Query.Trail : ρ ⊕ Query.Role → List ((o : Op SizeT) × o.Res) → Prop
  | .inl _, _ => True
  | .inr (.start _), ops => ops = []
  | .inr (.sawHead _ h), ops => ops = [⟨.loadHead, h⟩]
  | .inr (.sawBoth _ h d), ops => ops = [⟨.loadHead, h⟩, ⟨.loadTail, d⟩]

/-- The query of a role. -/
def Query.Role.query : Query.Role → Query
  | .start q | .sawHead q _ | .sawBoth q _ _ => q

variable {look : Query → RingProg SizeT Answer} {tr tr₁ tr₂ tr₃ : List (QueryEv Tid Call Ret)}
  {cf : Config (Op SizeT) Op.Res Empty Tid (Call ⊕ Query) (Ret ⊕ Answer) (Mem SizeT Tid)}
  {t : Tid} {id : Nat} {q : Query}

theorem Counts.watch_follows (hc : Counts r P S m₀ pushed popped B)
    (hlook : ∀ q, (Query.proto r).wp (look q) (Query.proto r).final (.start q)) :
    (P.watch (Query.proto r)).Follows (S.watch look) :=
  hc.follows.watch (fun _ _ h => h) hlook

theorem query_trail_inductive :
    Inductive (P.watch (Query.proto r)) (S.watch look) m₀ fun tr _ R =>
      ∀ t a, R t = some a → ∃ ops, Query.Trail a.role ops ∧ Doing tr t a.id a.call ops := by
  refine trail_inductive Query.Trail (fun c => ?_) fun {l o x l' ops} hm h => ?_
  · cases c with
    | inl c => trivial
    | inr q => rfl
  · cases l' with
    | inl l' => trivial
    | inr k' =>
      cases l with
      | inl l => exact (hm : False).elim
      | inr k =>
        have hm' : Query.Trans k o x k' := hm
        cases hm' with
        | loadHead =>
          obtain rfl : ops = [] := h
          rfl
        | loadTail =>
          obtain rfl : ops = _ := h
          rfl

theorem query_role_inductive :
    Inductive (P.watch (Query.proto r)) (S.watch look) m₀ fun _ _ R =>
      ∀ t a, R t = some a → ∀ q k, a.call = .inr q → a.role = .inr k → k.query = q := by
  refine roles_inductive (fun (c : Call ⊕ Query) (l : ρ ⊕ Query.Role) =>
    ∀ q k, c = .inr q → l = .inr k → k.query = q) (fun c q k hc hl => ?_)
    fun {c l o x l'} hm h q k' hc hl => ?_
  · subst hc
    obtain rfl : .start q = k := Sum.inr.inj hl
    rfl
  · subst hl
    cases l with
    | inl l => exact (hm : False).elim
    | inr k =>
      have hm' : Query.Trans k o x k' := hm
      have hq := h q k hc rfl
      cases hm' with
      | loadHead => exact hq
      | loadTail => exact hq

theorem Counts.before_op (hc : Counts r P S m₀ pushed popped B)
    (hlook : ∀ q, (Query.proto r).wp (look q) (Query.proto r).final (.start q))
    {c : Call ⊕ Query} {o : Op SizeT} {x : o.Res}
    (h : Run (S.watch look) (.start m₀) (tr₁ ++ .op t id c o x :: tr₂) cf)
    (hb : B (watched tr₁)) :
    ∃ m m', Counters r pushed popped (watched tr₁) m ∧ exec t o m = (x, m') := by
  obtain ⟨I, hI, hcount⟩ := hc.counters
  have hwatch : Inductive (P.watch (Query.proto r)) (S.watch look) m₀ _ :=
    hI.watch fun hm he => Query.exec_of_trans hm (hc.exec_eq he)
  obtain ⟨n, m, m', R, l, l', -, ⟨-, hi⟩, -, -, he⟩ :=
    Inductive.before_op (hc.watch_follows hlook) hwatch h
  exact ⟨m, m', hcount _ _ _ hi hb, hc.exec_eq he⟩

/-- How a query comes to its answer. -/
theorem Counts.before_answer (hc : Counts r P S m₀ pushed popped B)
    (hlook : ∀ q, (Query.proto r).wp (look q) (Query.proto r).final (.start q)) {v : Ret ⊕ Answer}
    (h : Run (S.watch look) (.start m₀) (tr₁ ++ .ret t id (.inr q) v :: tr₂) cf) :
    (q = .capacity ∧ v = .inr (.size r.objNum)) ∨
    ∃ h d, v = .inr (q.answer r h d) ∧
      Doing tr₁ t id (.inr q) [⟨.loadHead, h⟩, ⟨.loadTail, d⟩] := by
  obtain ⟨n, m, R, l, -, ⟨hM, htrail, hrole⟩, ht, hfin⟩ := Inductive.before_ret
    (hc.watch_follows hlook)
    (matched_inductive.both (query_trail_inductive.both query_role_inductive)) h
  have hmatch := hM t _ ht
  obtain ⟨ops, hops, hdoing⟩ := htrail t _ ht
  cases l with
  | inl l => cases hmatch
  | inr k =>
    obtain rfl : k.query = q := hrole t _ ht q k rfl rfl
    cases v with
    | inl v => exact (hfin : False).elim
    | inr a =>
      have hfin' : (Query.proto r).final k a := hfin
      cases k with
      | start q =>
        cases q with
        | capacity => exact .inl ⟨rfl, congrArg Sum.inr hfin'⟩
        | _ => exact hfin'.elim
      | sawHead q h => exact hfin'.elim
      | sawBoth q y d =>
        obtain rfl : ops = _ := hops
        exact .inr ⟨y, d, congrArg Sum.inr hfin', hdoing⟩

/-- What a query has seen: the head after `tr₁`, the tail after `tr₁ ++ tr₂`. -/
structure Seen (r : Ring SizeT) (pushed popped : List (RingEv Tid Call Ret) → Nat)
    (tr tr₁ tr₂ : List (QueryEv Tid Call Ret)) (t : Tid) (id : Nat) (q : Query) (h d : SizeT) :
    Prop where
  looked : Looked tr tr₁ tr₂ t id q
  called : .call t id (.inr q) ∈ tr₁
  head : h = word (pushed (watched tr₁))
  tail : d = word (popped (watched (tr₁ ++ tr₂)))
  room : pushed (watched tr₁) ≤ popped (watched tr₁) + r.cap
  le : popped (watched tr₁) ≤ popped (watched (tr₁ ++ tr₂))

omit [DecidableEq Tid] in
theorem watched_loadHead (x : SizeT) :
    watched (tr₁ ++ .op t id (.inr q) .loadHead x :: tr₂) = watched (tr₁ ++ tr₂) := by
  rw [watched_append, watched_append]
  rfl

theorem Counts.seen (hc : Counts r P S m₀ pushed popped B)
    (hlook : ∀ q, (Query.proto r).wp (look q) (Query.proto r).final (.start q)) {x d : SizeT}
    (h : Run (S.watch look) (.start m₀) tr cf) (hb : B (watched tr))
    (hd : Doing tr t id (.inr q) [⟨.loadHead, x⟩, ⟨.loadTail, d⟩]) :
    ∃ tr₁ tr₂, Seen r pushed popped tr tr₁ tr₂ t id q x d := by
  obtain ⟨tr₁, tr₂, tr₃, htr, hcall⟩ := hd.call_pair
  have htr : tr = tr₁ ++ .op t id (.inr q) .loadHead x :: tr₂ ++
      .op t id (.inr q) .loadTail d :: tr₃ := htr
  subst htr
  have hb₂ : B (watched (tr₁ ++ .op t id (.inr q) .loadHead x :: tr₂)) := by
    rw [watched_append] at hb
    exact hc.of_append hb
  have hb₁ : B (watched tr₁) := by
    rw [watched_append] at hb₂
    exact hc.of_append hb₂
  obtain ⟨m₂, m₂', h₂, he₂⟩ := hc.before_op hlook h hb₂
  rw [List.append_assoc] at h
  obtain ⟨m₁, m₁', h₁, he₁⟩ := hc.before_op hlook h hb₁
  obtain ⟨rfl, -⟩ := Prod.mk.inj he₁
  obtain ⟨rfl, -⟩ := Prod.mk.inj he₂
  refine ⟨tr₁, tr₂, ⟨_, _, tr₃, rfl⟩, hcall, h₁.head, ?_, h₁.room, ?_⟩
  · rw [h₂.tail, watched_loadHead]
  · rw [watched_append]
    exact hc.popped_le _ _

/-! ## Right answers -/

namespace Seen

variable {x d : SizeT}

omit [DecidableEq Tid] in
/-- A moment between the two loads. -/
theorem held {n : Nat} (h : Seen r pushed popped tr tr₁ tr₂ t id q x d)
    {tr₃ tr₄ : List (QueryEv Tid Call Ret)} (htr : tr₂ = tr₃ ++ tr₄)
    (hn : pushed (watched (tr₁ ++ tr₃)) = popped (watched (tr₁ ++ tr₃)) + n) :
    Held pushed popped n tr t id := by
  obtain ⟨⟨y, e, tr₅, rfl⟩, hcall, -⟩ := h
  subst htr
  refine ⟨tr₁ ++ .op t id (.inr q) .loadHead y :: tr₃,
    tr₄ ++ .op t id (.inr q) .loadTail e :: tr₅, .inr q, by simp,
    List.mem_append_left _ hcall, ?_⟩
  beta_reduce
  rw [watched_loadHead]
  exact hn

omit [DecidableEq Tid] in
theorem size_le (h : Seen r pushed popped tr tr₁ tr₂ t id q x d)
    (hs : popped (watched (tr₁ ++ tr₂)) ≤ pushed (watched tr₁)) : toNat (x - d) ≤ r.cap := by
  have hroom := h.room
  have hle := h.le
  have hcap := r.cap_le
  rw [h.head, h.tail, toNat_word_sub hs (by omega)]
  omega

omit [DecidableEq Tid] in
theorem full (h : Seen r pushed popped tr tr₁ tr₂ t id q x d)
    (hs : popped (watched (tr₁ ++ tr₂)) ≤ pushed (watched tr₁)) (hfull : x - d ≥ r.objNum) :
    Held pushed popped r.cap tr t id := by
  have hroom := h.room
  have hle := h.le
  rw [h.head, h.tail, r.full_iff hs (by omega)] at hfull
  refine h.held (List.nil_append tr₂).symm ?_
  rw [List.append_nil]
  omega

theorem empty (hc : Counts r P S m₀ pushed popped B)
    (h : Seen r pushed popped tr tr₁ tr₂ t id q x d)
    (hlt : popped (watched (tr₁ ++ tr₂)) < pushed (watched tr₁) + 2 ^ 64)
    (hs : popped (watched (tr₁ ++ tr₂)) = pushed (watched tr₁) →
      ∀ tr₃ tr₄, tr₂ = tr₃ ++ tr₄ →
        popped (watched (tr₁ ++ tr₃)) < popped (watched (tr₁ ++ tr₂)) →
        pushed (watched (tr₁ ++ tr₃)) = pushed (watched tr₁))
    (hempty : x = d) : Held pushed popped 0 tr t id := by
  have hroom := h.room
  have hle := h.le
  have hcap := r.cap_le
  have heq : popped (watched (tr₁ ++ tr₂)) = pushed (watched tr₁) := by
    rw [h.head, h.tail] at hempty
    rcases Nat.le_total (pushed (watched tr₁)) (popped (watched (tr₁ ++ tr₂))) with hle' | hle'
    · exact (word_inj hle' hlt).1 hempty.symm
    · exact ((word_inj hle' (by omega)).1 hempty).symm
  by_cases hmoved : popped (watched tr₁) < popped (watched (tr₁ ++ tr₂))
  · have hgrow : ∀ a b : List (QueryEv Tid Call Ret),
        popped (watched a) ≤ popped (watched (a ++ b)) := by
      intro a b
      rw [watched_append]
      exact hc.popped_le _ _
    obtain ⟨tr₃, e, tr₄, htr, hbefore, hafter⟩ := exists_last_growth hgrow tr₁ tr₂ hmoved
    have hpushed := hs heq tr₃ (e :: tr₄) htr hbefore
    have hsplit : tr₂ = (tr₃ ++ [e]) ++ tr₄ := by rw [htr]; simp
    refine h.held hsplit ?_
    -- The last pop is no push.
    rw [← List.append_assoc, hafter, heq, ← hpushed, Nat.add_zero]
    rcases watched_snoc (tr₁ ++ tr₃) e with hw | ⟨e', hw⟩
    · rw [hw]
    · rw [hw] at hafter ⊢
      refine (hc.one _ e').resolve_right fun hsame => ?_
      rw [hsame] at hafter
      omega
  · refine h.held (List.nil_append tr₂).symm ?_
    rw [List.append_nil]
    omega

end Seen

/-- **The answers of steady queries are right.** -/
theorem Counts.right (hc : Counts r P S m₀ pushed popped B)
    (hlook : ∀ q, (Query.proto r).wp (look q) (Query.proto r).final (.start q))
    (h : Run (S.watch look) (.start m₀) tr cf) (hb : B (watched tr))
    (hs : Steady pushed popped tr) : Right r pushed popped tr := by
  rintro tr' tr'' t id q v rfl
  rcases hc.before_answer hlook h with ⟨rfl, rfl⟩ | ⟨x, d, rfl, hd⟩
  · exact ⟨_, rfl, rfl⟩
  · obtain ⟨c₁, h₁, -⟩ := h.cut
    rw [watched_append] at hb
    obtain ⟨tr₁, tr₂, hseen⟩ := hc.seen hlook h₁ (hc.of_append hb) hd
    obtain ⟨y, e, tr₃, htr⟩ := hseen.looked
    have hsteady := hs tr₁ tr₂ t id q ⟨y, e, tr₃ ++ _, by rw [htr, List.append_assoc]; rfl⟩
    refine ⟨_, rfl, ?_⟩
    cases q with
    | size => exact ⟨_, rfl, hseen.size_le hsteady⟩
    | isFull => exact fun hv => hseen.full hsteady (of_decide_eq_true (Answer.bool.inj hv))
    | isEmpty => exact fun hv => hseen.empty hc hsteady.1 hsteady.2 (eq_of_beq (Answer.bool.inj hv))
    | capacity => rfl

end RingBuf
