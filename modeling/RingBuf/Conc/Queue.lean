import RingBuf.Conc.History
import Mathlib.Data.List.Induction

/-!
# Histories of a queue

What a ring is for: a queue of at most `cap` elements that numbers them as they come in
(`QueueRun`). A concurrent history is explained by one when its calls that had an effect can be put
in a single order, which real time agrees with, such that they are a run of the queue and every call
returned what that run tells it (`Linearized`).

Where each effect happens at one operation of its call (`QueueOps`), the order is that of these
operations (`QueueOps.lin`). It is enough to know how many there are: if at every moment at most as
many elements were taken as had been put in, and at most `cap` fewer, then the list is a run of the
queue whose `k`-th removal takes the `k`-th element (`Run.linearized`).
-/

namespace Conc

/-- An operation of a queue: element number `k` goes in, or it comes out. -/
inductive Act (E : Type)
  | enq (k : Nat) (e : E)
  | deq (k : Nat) (e : E)

/-- The operations take a queue of at most `cap` elements, first `q₀`, to the queue `q` whose oldest
element has number `d`. -/
inductive QueueRun {E : Type} (cap : Nat) (q₀ : List E) : List (Act E) → Nat → List E → Prop
  | refl : QueueRun cap q₀ [] 0 q₀
  | enq {as d q e} : QueueRun cap q₀ as d q → q.length < cap →
      QueueRun cap q₀ (as ++ [.enq (d + q.length) e]) d (q ++ [e])
  | deq {as d q e} : QueueRun cap q₀ as d (e :: q) → QueueRun cap q₀ (as ++ [.deq d e]) (d + 1) q

/-! ## What goes in and what comes out -/

section QueueRun

variable {E : Type} {cap d : Nat} {as : List (Act E)} {q : List E}

/-- The element an operation puts in, with its number. -/
def Act.put? : Act E → Option (Nat × E)
  | .enq k e => some (k, e)
  | .deq _ _ => none

/-- The element an operation takes out, with its number. -/
def Act.take? : Act E → Option (Nat × E)
  | .enq _ _ => none
  | .deq k e => some (k, e)

def puts (as : List (Act E)) : List (Nat × E) := as.filterMap Act.put?

def takes (as : List (Act E)) : List (Nat × E) := as.filterMap Act.take?

/-- A queue that was empty at first numbers its elements from `0`, and they come out in this
order. -/
theorem QueueRun.fifo (h : QueueRun cap [] as d q) :
    (puts as).map Prod.fst = List.range (puts as).length ∧ takes as = (puts as).take d ∧
      q = ((puts as).drop d).map Prod.snd ∧ d ≤ (puts as).length := by
  induction h with
  | refl => exact ⟨rfl, rfl, rfl, Nat.le_refl 0⟩
  | @enq as d q e _ _ ih =>
    obtain ⟨hnum, htakes, rfl, hle⟩ := ih
    have hputs : puts (as ++ [.enq (d + (((puts as).drop d).map Prod.snd).length) e]) =
        puts as ++ [((puts as).length, e)] := by
      rw [puts, List.filterMap_append, List.length_map, List.length_drop, Nat.add_sub_cancel' hle]
      rfl
    rw [hputs]
    refine ⟨?_, ?_, ?_, ?_⟩
    · rw [List.map_append, hnum, List.length_append, List.length_singleton, List.range_succ]
      rfl
    · rw [List.take_append_of_le_length hle, ← htakes, takes, List.filterMap_append]
      exact List.append_nil _
    · rw [List.drop_append_of_le_length hle, List.map_append]
      rfl
    · rw [List.length_append]
      exact Nat.le_add_right_of_le hle
  | @deq as d q e _ ih =>
    obtain ⟨hnum, htakes, hq, hle⟩ := ih
    have hputs : puts (as ++ [.deq d e]) = puts as := by
      rw [puts, List.filterMap_append]
      exact List.append_nil _
    -- The oldest element is the next one to come out.
    have hlt : d < (puts as).length := by
      have hlen := congrArg List.length hq
      rw [List.length_cons, List.length_map, List.length_drop] at hlen
      omega
    rw [List.drop_eq_getElem_cons hlt, List.map_cons] at hq
    obtain ⟨hx, rfl⟩ := List.cons.inj hq
    have hd : (puts as)[d].1 = d := by
      have hget := congrArg (·[d]?) hnum
      simpa [List.getElem?_range hlt, List.getElem?_eq_getElem hlt] using hget
    rw [hputs]
    refine ⟨hnum, ?_, rfl, hlt⟩
    rw [List.take_succ_eq_append_getElem hlt, ← htakes, takes, List.filterMap_append]
    have hget : (d, e) = (puts as)[d] := Prod.ext hd.symm hx
    exact congrArg (fun x => takes as ++ [x]) hget

theorem mem_puts {k : Nat} {e : E} : (k, e) ∈ puts as ↔ .enq k e ∈ as := by
  rw [puts, List.mem_filterMap]
  constructor
  · rintro ⟨a, ha, hx⟩
    cases a <;> cases hx
    exact ha
  · intro ha
    exact ⟨_, ha, rfl⟩

theorem mem_takes {k : Nat} {e : E} : (k, e) ∈ takes as ↔ .deq k e ∈ as := by
  rw [takes, List.mem_filterMap]
  constructor
  · rintro ⟨a, ha, hx⟩
    cases a <;> cases hx
    exact ha
  · intro ha
    exact ⟨_, ha, rfl⟩

end QueueRun

variable {Op : Type} {Res : Op → Type} {Lbl Tid Call Ret σ π E : Type}

/-- `L` lists the calls of the history `tr` that had an effect on a queue that first held `q₀`, in
the order of their effects. `fits` says which effects a call may have, and `returns` what it returns
after an effect, or without one. -/
structure Linearized (cap : Nat) (q₀ : List E) (fits : Call → Act E → Prop)
    (returns : Call → Ret → Option (Act E) → Prop) (tr : List (Event Op Res Tid Call Ret))
    (L : List (Nat × Act E)) : Prop where
  /-- The effects are a run of the queue. -/
  legal : ∃ d q, QueueRun cap q₀ (L.map Prod.snd) d q
  /-- No call has two effects. -/
  once : (L.map Prod.fst).Nodup
  called : ∀ {id a}, (id, a) ∈ L → ∃ t c, .call t id c ∈ tr ∧ fits c a
  /-- A call that has returned had the effect its value tells of, or had none and says so. -/
  ret : ∀ {t id c v}, .ret t id c v ∈ tr →
    (∃ a, (id, a) ∈ L ∧ returns c v (some a)) ∨ ((∀ a, (id, a) ∉ L) ∧ returns c v none)
  /-- A call that returned before another one was made comes first. -/
  order : ∀ {tr₁ tr₂ tr₃ t i c v u j d a b},
    tr = (tr₁ ++ .ret t i c v :: tr₂) ++ .call u j d :: tr₃ → (i, a) ∈ L → (j, b) ∈ L →
    [(i, a), (j, b)].Sublist L

namespace Linearized

variable {cap : Nat} {fits : Call → Act E → Prop} {returns : Call → Ret → Option (Act E) → Prop}
  {tr : List (Event Op Res Tid Call Ret)} {L : List (Nat × Act E)} {i j k : Nat} {e e' : E}

/-- A queue that was empty at first has put in what it takes out. -/
theorem put_of_take (h : Linearized cap [] fits returns tr L) (hi : (i, .deq k e) ∈ L) :
    ∃ j, (j, .enq k e) ∈ L := by
  obtain ⟨d, q, hrun⟩ := h.legal
  have hmem : (k, e) ∈ takes (L.map Prod.snd) := mem_takes.2 (List.mem_map_of_mem hi)
  rw [hrun.fifo.2.1] at hmem
  obtain ⟨⟨j, a⟩, hj, rfl⟩ := List.mem_map.1 (mem_puts.1 (List.mem_of_mem_take hmem))
  exact ⟨j, hj⟩

theorem number_lt (h : Linearized cap [] fits returns tr L) (hi : (i, .enq k e) ∈ L) :
    k < (puts (L.map Prod.snd)).length := by
  obtain ⟨d, q, hrun⟩ := h.legal
  have hmem : (k, e) ∈ puts (L.map Prod.snd) := mem_puts.2 (List.mem_map_of_mem hi)
  have hfst := List.mem_map_of_mem (f := Prod.fst) hmem
  rw [hrun.fifo.1] at hfst
  exact List.mem_range.1 hfst

theorem take_inj (h : Linearized cap [] fits returns tr L) (hi : (i, .deq k e) ∈ L)
    (hj : (j, .deq k e') ∈ L) : i = j := by
  obtain ⟨d, q, hrun⟩ := h.legal
  obtain ⟨hnum, htakes, -, -⟩ := hrun.fifo
  -- The removals with the calls that made them.
  have hlist : (L.filterMap fun x => x.2.take?.map fun y => (x.1, y)).map (fun x => x.2.1) =
      (takes (L.map Prod.snd)).map Prod.fst := by
    rw [takes, List.filterMap_map, List.map_filterMap, List.map_filterMap]
    congr 1
    funext x
    rw [Function.comp_apply]
    cases x.2.take? <;> rfl
  have hnodup : ((takes (L.map Prod.snd)).map Prod.fst).Nodup := by
    rw [htakes, List.map_take, hnum]
    exact List.nodup_range.sublist (List.take_sublist ..)
  rw [← hlist] at hnodup
  have hi' : (i, (k, e)) ∈ L.filterMap fun x => x.2.take?.map fun y => (x.1, y) :=
    List.mem_filterMap.2 ⟨_, hi, rfl⟩
  have hj' : (j, (k, e')) ∈ L.filterMap fun x => x.2.take?.map fun y => (x.1, y) :=
    List.mem_filterMap.2 ⟨_, hj, rfl⟩
  exact congrArg Prod.fst (List.inj_on_of_nodup_map hnodup hi' hj' rfl)

theorem eq_of_mem (h : Linearized cap [] fits returns tr L) {a b : Act E} (ha : (i, a) ∈ L)
    (hb : (i, b) ∈ L) : a = b :=
  congrArg Prod.snd (List.inj_on_of_nodup_map h.once ha hb rfl)

end Linearized

/-- The operations of a system at which calls put their element into a queue and take the oldest
one out of it. -/
structure QueueOps (Op : Type) (Res : Op → Type) (Call π E : Type) where
  put : (o : Op) → Res o → Option π
  take : (o : Op) → Res o → Option π
  elem : Call → E
  apart : ∀ o r, put o r = none ∨ take o r = none

namespace QueueOps

variable (V : QueueOps Op Res Call π E) (q₀ : List E) {cap : Nat}
  {tr tr₁ tr₂ : List (Event Op Res Tid Call Ret)} {e : Event Op Res Tid Call Ret}

/-- The elements put in so far, those of `q₀` first. -/
def inserted (tr : List (Event Op Res Tid Call Ret)) : List E :=
  q₀ ++ (claims V.put tr).map fun c => V.elem c.call

/-- The number of elements taken out so far. -/
def removed (tr : List (Event Op Res Tid Call Ret)) : Nat := (claims V.take tr).length

/-- No more elements have been taken than put in, and at most `cap` fewer. -/
def Bounded (cap : Nat) (tr : List (Event Op Res Tid Call Ret)) : Prop :=
  V.removed tr ≤ (V.inserted q₀ tr).length ∧ (V.inserted q₀ tr).length ≤ V.removed tr + cap

variable {V} in
/-- Counts that agree with the numbers of the claims. -/
theorem bounded_of_numbered {num num' : π → Nat} {h d : Nat} (hp : Numbered num (claims V.put tr) h)
    (ht : Numbered num' (claims V.take tr) d) (hb : d ≤ h ∧ h ≤ d + cap) :
    V.Bounded [] cap tr := by
  rw [Bounded, inserted, removed, List.nil_append, List.length_map, hp.length, ht.length]
  exact hb

variable {V} in
theorem inserted_of_claim {k : Nat} {c : Claim Tid Call π} (h : (claims V.put tr)[k]? = some c) :
    (V.inserted [] tr)[k]? = some (V.elem c.call) := by
  rw [inserted, List.nil_append, List.getElem?_map, h]
  rfl

variable {V q₀} in
theorem getElem?_inserted {k : Nat} {x : E} (h : (V.inserted q₀ tr₁)[k]? = some x)
    (tr₂ : List (Event Op Res Tid Call Ret)) : (V.inserted q₀ (tr₁ ++ tr₂))[k]? = some x := by
  have happ : V.inserted q₀ (tr₁ ++ tr₂) =
      V.inserted q₀ tr₁ ++ (claims V.put tr₂).map fun c => V.elem c.call := by
    simp [inserted]
  rw [happ, List.getElem?_append_left (List.getElem?_eq_some_iff.1 h).1, h]

variable {V q₀} in
/-- Whatever was taken out had been put in. -/
theorem Bounded.exists_inserted (h : V.Bounded q₀ cap tr) {k : Nat} {c : Claim Tid Call π}
    (hc : (claims V.take tr)[k]? = some c) : ∃ x, (V.inserted q₀ tr)[k]? = some x :=
  ⟨_, List.getElem?_eq_getElem
    (Nat.lt_of_lt_of_le (List.getElem?_eq_some_iff.1 hc).1 h.1)⟩

/-- The effects so far, and the queue they end in with the number of its oldest element. -/
structure Lin (E : Type) where
  acts : List (Nat × Act E)
  number : Nat
  queue : List E

/-- What an event adds. -/
def linStep (s : Lin E) (e : Event Op Res Tid Call Ret) : Lin E :=
  match e.claim? V.put with
  | some c =>
    ⟨s.acts ++ [(c.id, .enq (s.number + s.queue.length) (V.elem c.call))], s.number,
      s.queue ++ [V.elem c.call]⟩
  | none =>
    match e.claim? V.take, s.queue with
    | some c, x :: q => ⟨s.acts ++ [(c.id, .deq s.number x)], s.number + 1, q⟩
    | _, _ => s

/-- The effects of a history in their order. -/
def lin (tr : List (Event Op Res Tid Call Ret)) : Lin E := tr.foldl V.linStep ⟨[], 0, q₀⟩

variable {V q₀}

theorem lin_snoc : V.lin q₀ (tr ++ [e]) = V.linStep (V.lin q₀ tr) e := by
  rw [lin, List.foldl_append]
  rfl

theorem linStep_extends (s : Lin E) (e : Event Op Res Tid Call Ret) :
    ∃ L, (V.linStep s e).acts = s.acts ++ L := by
  unfold linStep
  split
  · exact ⟨_, rfl⟩
  · split
    · exact ⟨_, rfl⟩
    · exact ⟨[], (List.append_nil _).symm⟩

theorem lin_append (q₀ : List E) (tr₁ tr₂ : List (Event Op Res Tid Call Ret)) :
    ∃ L, (V.lin q₀ (tr₁ ++ tr₂)).acts = (V.lin q₀ tr₁).acts ++ L := by
  induction tr₂ using List.reverseRecOn with
  | nil => exact ⟨[], by rw [List.append_nil, List.append_nil]⟩
  | append_singleton tr₂ e ih =>
    obtain ⟨L, hL⟩ := ih
    obtain ⟨L', hL'⟩ := V.linStep_extends (V.lin q₀ (tr₁ ++ tr₂)) e
    refine ⟨L ++ L', ?_⟩
    rw [← List.append_assoc, lin_snoc, hL', hL, List.append_assoc]

theorem mem_lin_append {x : Nat × Act E} (h : x ∈ (V.lin q₀ tr₁).acts)
    (tr₂ : List (Event Op Res Tid Call Ret)) : x ∈ (V.lin q₀ (tr₁ ++ tr₂)).acts := by
  obtain ⟨L, hL⟩ := V.lin_append q₀ tr₁ tr₂
  rw [hL]
  exact List.mem_append_left _ h

theorem claim?_id {take : (o : Op) → Res o → Option π} {c : Claim Tid Call π}
    (h : e.claim? take = some c) : c.id = e.id := by
  cases e with
  | op t id a o r =>
    obtain ⟨p, -, rfl⟩ := Option.map_eq_some_iff.1 h
    rfl
  | _ => cases h

/-- An event has at most one effect, that of its call. -/
theorem lin_snoc_or : (V.lin q₀ (tr ++ [e])).acts = (V.lin q₀ tr).acts ∨
    ∃ act, (V.lin q₀ (tr ++ [e])).acts = (V.lin q₀ tr).acts ++ [(e.id, act)] := by
  rw [lin_snoc]
  unfold linStep
  split
  case h_1 c hc => exact .inr ⟨_, by rw [← claim?_id hc]⟩
  case h_2 hc =>
    split
    case h_1 c x q hc' hq => exact .inr ⟨_, by rw [← claim?_id hc']⟩
    case h_2 => exact .inl rfl

theorem lin_snoc_call {t : Tid} {id : Nat} {a : Call} :
    V.lin q₀ (tr ++ [.call t id a]) = V.lin q₀ tr := by
  rw [lin_snoc]
  rfl

theorem lin_snoc_ret {t : Tid} {id : Nat} {a : Call} {v : Ret} :
    V.lin q₀ (tr ++ [.ret t id a v]) = V.lin q₀ tr := by
  rw [lin_snoc]
  rfl

theorem claims_snoc (take : (o : Op) → Res o → Option π) (tr : List (Event Op Res Tid Call Ret))
    (e : Event Op Res Tid Call Ret) :
    claims take (tr ++ [e]) = claims take tr ++ (e.claim? take).toList := by
  rw [claims_append]
  show _ ++ List.filterMap _ [e] = _
  rw [List.filterMap_cons]
  cases e.claim? take <;> rfl

theorem length_puts_lin : (puts ((V.lin q₀ tr).acts.map Prod.snd)).length =
    (claims V.put tr).length := by
  induction tr using List.reverseRecOn with
  | nil => rfl
  | append_singleton tr e ih =>
    have hputs : ∀ L : List (Act E), puts (((V.lin q₀ tr).acts.map Prod.snd) ++ L) =
        puts ((V.lin q₀ tr).acts.map Prod.snd) ++ puts L := fun L => List.filterMap_append
    rw [lin_snoc, claims_snoc, List.length_append, ← ih]
    unfold linStep
    split
    case h_1 c hc =>
      rw [hc, List.map_append, hputs, List.length_append]
      rfl
    case h_2 hc =>
      rw [hc]
      split
      case h_1 c x q hc' hq =>
        rw [List.map_append, hputs, List.length_append]
        rfl
      case h_2 => rfl

/-! ## One event -/

theorem claim?_take_of_put {c : Claim Tid Call π} (h : e.claim? V.put = some c) :
    e.claim? V.take = none := by
  cases e with
  | op t id a o r =>
    rcases V.apart o r with hp | ht
    · rw [Event.claim?, hp] at h
      cases h
    · rw [Event.claim?, ht, Option.map_none]
  | _ => rfl

theorem step_cases (V : QueueOps Op Res Call π E) (q₀ : List E)
    (tr : List (Event Op Res Tid Call Ret)) (e : Event Op Res Tid Call Ret) :
    (∃ c : Claim Tid Call π, claims V.put (tr ++ [e]) = claims V.put tr ++ [c] ∧
      claims V.take (tr ++ [e]) = claims V.take tr ∧
      V.lin q₀ (tr ++ [e]) = ⟨(V.lin q₀ tr).acts ++
          [(c.id, .enq ((V.lin q₀ tr).number + (V.lin q₀ tr).queue.length) (V.elem c.call))],
        (V.lin q₀ tr).number, (V.lin q₀ tr).queue ++ [V.elem c.call]⟩) ∨
    (∃ c : Claim Tid Call π, claims V.put (tr ++ [e]) = claims V.put tr ∧
      claims V.take (tr ++ [e]) = claims V.take tr ++ [c] ∧
      ∀ x q, (V.lin q₀ tr).queue = x :: q →
        V.lin q₀ (tr ++ [e]) = ⟨(V.lin q₀ tr).acts ++ [(c.id, .deq (V.lin q₀ tr).number x)],
          (V.lin q₀ tr).number + 1, q⟩) ∨
    (claims V.put (tr ++ [e]) = claims V.put tr ∧ claims V.take (tr ++ [e]) = claims V.take tr ∧
      V.lin q₀ (tr ++ [e]) = V.lin q₀ tr) := by
  rw [claims_snoc, claims_snoc, lin_snoc]
  cases hp : e.claim? V.put with
  | some c =>
    refine .inl ⟨c, rfl, ?_, ?_⟩
    · rw [claim?_take_of_put hp, Option.toList_none, List.append_nil]
    · simp only [linStep, hp]
  | none =>
    right
    rw [Option.toList_none, List.append_nil]
    cases ht : e.claim? V.take with
    | some c =>
      refine .inl ⟨c, rfl, rfl, fun x q hq => ?_⟩
      simp only [linStep, hp, ht, hq]
    | none =>
      refine .inr ⟨rfl, ?_, ?_⟩
      · rw [Option.toList_none, List.append_nil]
      · simp only [linStep, hp, ht]

/-! ## The whole history -/

/-- What the list of effects is, as long as the counts are in bounds. -/
structure LinSpec (V : QueueOps Op Res Call π E) (q₀ : List E) (cap : Nat)
    (tr : List (Event Op Res Tid Call Ret)) : Prop where
  number : (V.lin q₀ tr).number = V.removed tr
  rest : (V.lin q₀ tr).queue = (V.inserted q₀ tr).drop (V.removed tr)
  legal : QueueRun cap q₀ ((V.lin q₀ tr).acts.map Prod.snd) (V.lin q₀ tr).number (V.lin q₀ tr).queue
  ids : ((V.lin q₀ tr).acts.map Prod.fst).Perm
    ((claims V.put tr).map Claim.id ++ (claims V.take tr).map Claim.id)
  put : ∀ {k : Nat} {c}, (claims V.put tr)[k]? = some c →
    (c.id, .enq (q₀.length + k) (V.elem c.call)) ∈ (V.lin q₀ tr).acts
  take : ∀ {k : Nat} {c x}, (claims V.take tr)[k]? = some c → (V.inserted q₀ tr)[k]? = some x →
    (c.id, .deq k x) ∈ (V.lin q₀ tr).acts
  /-- Nothing else is in the list. -/
  mem : ∀ {id a}, (id, a) ∈ (V.lin q₀ tr).acts →
    (∃ c ∈ claims V.put tr, c.id = id ∧ ∃ k, a = .enq k (V.elem c.call)) ∨
      ∃ c ∈ claims V.take tr, c.id = id ∧ ∃ k x, a = .deq k x

theorem LinSpec.nil : LinSpec V q₀ cap ([] : List (Event Op Res Tid Call Ret)) where
  number := rfl
  rest := (List.append_nil q₀).symm
  legal := .refl
  ids := .refl _
  put h := by simp at h
  take h := by simp at h
  mem h := by cases h

/-- The queue and what has left it are all that was put in. -/
theorem LinSpec.length (h : LinSpec V q₀ cap tr) (hb : V.Bounded q₀ cap tr) :
    (V.lin q₀ tr).number + (V.lin q₀ tr).queue.length = q₀.length + (claims V.put tr).length := by
  have hle := hb.1
  have hlen : (V.inserted q₀ tr).length = q₀.length + (claims V.put tr).length := by
    simp [inserted]
  rw [h.number, h.rest, List.length_drop]
  omega

theorem LinSpec.enq {c : Claim Tid Call π} (h : LinSpec V q₀ cap tr) (hb : V.Bounded q₀ cap tr)
    (hb' : V.Bounded q₀ cap (tr ++ [e])) (hp : claims V.put (tr ++ [e]) = claims V.put tr ++ [c])
    (ht : claims V.take (tr ++ [e]) = claims V.take tr)
    (hl : V.lin q₀ (tr ++ [e]) = ⟨(V.lin q₀ tr).acts ++
        [(c.id, .enq ((V.lin q₀ tr).number + (V.lin q₀ tr).queue.length) (V.elem c.call))],
      (V.lin q₀ tr).number, (V.lin q₀ tr).queue ++ [V.elem c.call]⟩) :
    LinSpec V q₀ cap (tr ++ [e]) := by
  have hins : V.inserted q₀ (tr ++ [e]) = V.inserted q₀ tr ++ [V.elem c.call] := by
    simp [inserted, hp]
  have hrem : V.removed (tr ++ [e]) = V.removed tr := congrArg List.length ht
  have hroom : (V.lin q₀ tr).queue.length < cap := by
    have hle := hb'.2
    rw [hins, hrem, List.length_append, List.length_singleton] at hle
    rw [h.rest, List.length_drop]
    have := hb.1
    omega
  refine ⟨?_, ?_, ?_, ?_, ?_, ?_, ?_⟩
  · rw [hl, hrem]
    exact h.number
  · rw [hl, hins, hrem, List.drop_append_of_le_length hb.1, h.rest]
  · rw [hl, List.map_append]
    exact h.legal.enq hroom
  · rw [hl, hp, ht, List.map_append, List.map_append]
    refine (h.ids.append_right [c.id]).trans ?_
    rw [List.append_assoc, List.append_assoc]
    exact List.perm_append_comm.append_left _
  · intro k d hd
    rw [hl]
    rw [hp] at hd
    rcases Nat.lt_trichotomy k (claims V.put tr).length with hk | rfl | hk
    · rw [List.getElem?_append_left hk] at hd
      exact List.mem_append_left _ (h.put hd)
    · rw [List.getElem?_concat_length] at hd
      obtain rfl := Option.some.inj hd
      rw [h.length hb]
      exact List.mem_append_right _ (List.mem_singleton_self _)
    · rw [List.getElem?_eq_none (by simpa [Nat.succ_le_iff] using hk)] at hd
      cases hd
  · intro k d x hd hx
    rw [hl]
    apply List.mem_append_left
    rw [ht] at hd
    have hk : k < (V.inserted q₀ tr).length :=
      Nat.lt_of_lt_of_le (List.getElem?_eq_some_iff.1 hd).1 hb.1
    rw [hins, List.getElem?_append_left hk] at hx
    exact h.take hd hx
  · intro id a ha
    rw [hl] at ha
    rw [hp, ht]
    rcases List.mem_append.1 ha with ha | ha
    · rcases h.mem ha with ⟨d, hd, hda⟩ | hd
      · exact .inl ⟨d, List.mem_append_left _ hd, hda⟩
      · exact .inr hd
    · obtain ⟨rfl, rfl⟩ := Prod.mk.inj (List.mem_singleton.1 ha)
      exact .inl ⟨c, List.mem_append_right _ (List.mem_singleton_self _), rfl, _, rfl⟩

theorem LinSpec.deq {c : Claim Tid Call π} (h : LinSpec V q₀ cap tr)
    (hb' : V.Bounded q₀ cap (tr ++ [e])) (hp : claims V.put (tr ++ [e]) = claims V.put tr)
    (ht : claims V.take (tr ++ [e]) = claims V.take tr ++ [c])
    (hl : ∀ x q, (V.lin q₀ tr).queue = x :: q →
      V.lin q₀ (tr ++ [e]) = ⟨(V.lin q₀ tr).acts ++ [(c.id, .deq (V.lin q₀ tr).number x)],
        (V.lin q₀ tr).number + 1, q⟩) :
    LinSpec V q₀ cap (tr ++ [e]) := by
  have hins : V.inserted q₀ (tr ++ [e]) = V.inserted q₀ tr := by simp [inserted, hp]
  have hrem : V.removed (tr ++ [e]) = V.removed tr + 1 := by simp [removed, ht]
  have hlt : V.removed tr < (V.inserted q₀ tr).length := by
    have hle := hb'.1
    rwa [hins, hrem] at hle
  -- The oldest element is the one whose number is that of the removal.
  have hq := h.rest.trans (List.drop_eq_getElem_cons hlt)
  have hl := hl _ _ hq
  refine ⟨?_, ?_, ?_, ?_, ?_, ?_, ?_⟩
  · rw [hl, hrem, h.number]
  · rw [hl, hins, hrem]
  · rw [hl, List.map_append]
    exact (hq ▸ h.legal).deq
  · rw [hl, hp, ht, List.map_append, List.map_append, ← List.append_assoc]
    exact h.ids.append_right [c.id]
  · intro k d hd
    rw [hl]
    exact List.mem_append_left _ (h.put (hp ▸ hd))
  · intro k d x hd hx
    rw [hl]
    rw [ht] at hd
    rw [hins] at hx
    rcases Nat.lt_trichotomy k (claims V.take tr).length with hk | rfl | hk
    · rw [List.getElem?_append_left hk] at hd
      exact List.mem_append_left _ (h.take hd hx)
    · rw [List.getElem?_concat_length] at hd
      obtain rfl := Option.some.inj hd
      obtain ⟨-, rfl⟩ := List.getElem?_eq_some_iff.1 hx
      rw [h.number]
      exact List.mem_append_right _ (List.mem_singleton_self _)
    · rw [List.getElem?_eq_none (by simpa [Nat.succ_le_iff] using hk)] at hd
      cases hd
  · intro id a ha
    rw [hl] at ha
    rw [hp, ht]
    rcases List.mem_append.1 ha with ha | ha
    · rcases h.mem ha with hd | ⟨d, hd, hda⟩
      · exact .inl hd
      · exact .inr ⟨d, List.mem_append_left _ hd, hda⟩
    · obtain ⟨rfl, rfl⟩ := Prod.mk.inj (List.mem_singleton.1 ha)
      exact .inr ⟨c, List.mem_append_right _ (List.mem_singleton_self _), rfl, _, _, rfl⟩

theorem LinSpec.skip (h : LinSpec V q₀ cap tr) (hp : claims V.put (tr ++ [e]) = claims V.put tr)
    (ht : claims V.take (tr ++ [e]) = claims V.take tr) (hl : V.lin q₀ (tr ++ [e]) = V.lin q₀ tr) :
    LinSpec V q₀ cap (tr ++ [e]) := by
  have hins : V.inserted q₀ (tr ++ [e]) = V.inserted q₀ tr := by simp [inserted, hp]
  have hrem : V.removed (tr ++ [e]) = V.removed tr := congrArg List.length ht
  refine ⟨?_, ?_, ?_, ?_, ?_, ?_, ?_⟩
  · rw [hl, hrem, h.number]
  · rw [hl, hins, hrem, h.rest]
  · rw [hl]
    exact h.legal
  · rw [hl, hp, ht]
    exact h.ids
  · rw [hl, hp]
    exact h.put
  · rw [hl, ht, hins]
    exact h.take
  · rw [hl, hp, ht]
    exact h.mem

theorem linSpec (hb : ∀ {tr₁ tr₂}, tr = tr₁ ++ tr₂ → V.Bounded q₀ cap tr₁) :
    LinSpec V q₀ cap tr := by
  induction tr using List.reverseRecOn with
  | nil => exact .nil
  | append_singleton tr e ih =>
    have h : LinSpec V q₀ cap tr := ih fun htr => hb (by rw [htr, List.append_assoc])
    have hb' : V.Bounded q₀ cap (tr ++ [e]) := hb (List.append_nil _).symm
    rcases step_cases V q₀ tr e with ⟨c, hp, ht, hl⟩ | ⟨c, hp, ht, hl⟩ | ⟨hp, ht, hl⟩
    · exact h.enq (hb rfl) hb' hp ht hl
    · exact h.deq hb' hp ht hl
    · exact h.skip hp ht hl

/-! ## The calls behind the effects -/

theorem length_queue (hb : ∀ {tr₁ tr₂}, tr = tr₁ ++ tr₂ → V.Bounded q₀ cap tr₁) :
    (V.lin q₀ tr).queue.length = (V.inserted q₀ tr).length - V.removed tr := by
  rw [(linSpec hb).rest, List.length_drop]

theorem LinSpec.mem_ids (h : LinSpec V q₀ cap tr) {id : Nat} :
    id ∈ (V.lin q₀ tr).acts.map Prod.fst ↔
      (∃ c ∈ claims V.put tr, c.id = id) ∨ ∃ c ∈ claims V.take tr, c.id = id := by
  rw [h.ids.mem_iff, List.mem_append, List.mem_map, List.mem_map]

/-- An effect happened at an event of its call. -/
theorem LinSpec.exists_event (h : LinSpec V q₀ cap tr) {id : Nat} {a : Act E}
    (ha : (id, a) ∈ (V.lin q₀ tr).acts) : ∃ e ∈ tr, e.id = id := by
  rcases h.mem ha with ⟨c, hc, rfl, -⟩ | ⟨c, hc, rfl, -⟩
  · obtain ⟨o, r, he, -⟩ := exists_op_of_mem_claims hc
    exact ⟨_, he, rfl⟩
  · obtain ⟨o, r, he, -⟩ := exists_op_of_mem_claims hc
    exact ⟨_, he, rfl⟩

theorem claims_of_over {take : (o : Op) → Res o → Option π} {id : Nat} {c : Claim Tid Call π}
    (h : ∀ e ∈ tr₂, e.id ≠ id) (hc : c ∈ claims take (tr₁ ++ tr₂)) (hid : c.id = id) :
    c ∈ claims take tr₁ := by
  rw [claims_append] at hc
  refine (List.mem_append.1 hc).resolve_right fun hc => ?_
  obtain ⟨o, r, he, -⟩ := exists_op_of_mem_claims hc
  exact h _ he hid

theorem LinSpec.mem_of_over (h : LinSpec V q₀ cap (tr₁ ++ tr₂)) (h₁ : LinSpec V q₀ cap tr₁)
    (hnodup : ((V.lin q₀ (tr₁ ++ tr₂)).acts.map Prod.fst).Nodup) {id : Nat} {a : Act E}
    (hover : ∀ e ∈ tr₂, e.id ≠ id) (ha : (id, a) ∈ (V.lin q₀ (tr₁ ++ tr₂)).acts) :
    (id, a) ∈ (V.lin q₀ tr₁).acts := by
  have hids : id ∈ (V.lin q₀ tr₁).acts.map Prod.fst := by
    rw [h₁.mem_ids]
    refine (h.mem_ids.1 (List.mem_map_of_mem ha)).imp ?_ ?_
    · rintro ⟨c, hc, hid⟩
      exact ⟨c, claims_of_over hover hc hid, hid⟩
    · rintro ⟨c, hc, hid⟩
      exact ⟨c, claims_of_over hover hc hid, hid⟩
  obtain ⟨⟨id', a'⟩, ha', rfl⟩ := List.mem_map.1 hids
  have heq := List.inj_on_of_nodup_map hnodup ha (mem_lin_append ha' tr₂) rfl
  exact heq ▸ ha'

end QueueOps

/-! ## Runs -/

variable [DecidableEq Tid] {S : Sys Op Res Lbl Tid Call Ret σ} {s₀ : σ}
  {tr : List (Event Op Res Tid Call Ret)} {cf : Config Op Res Lbl Tid Call Ret σ}

/-- **Linearization.** A run in which the numbers of elements put in and taken out stay in bounds,
and in which every call returns what its operation on the queue was, is linearized by these
operations in their order. -/
theorem Run.linearized (V : QueueOps Op Res Call π E) {q₀ : List E} {cap : Nat}
    {fits : Call → Act E → Prop} {returns : Call → Ret → Option (Act E) → Prop}
    (h : Run S (.start s₀) tr cf)
    (hb : ∀ {tr₁ tr₂}, tr = tr₁ ++ tr₂ → V.Bounded q₀ cap tr₁)
    (hput : ((claims V.put tr).map Claim.id).Nodup)
    (htake : ((claims V.take tr).map Claim.id).Nodup)
    (hapart : ∀ {c : Call} {k k' : Nat} {e e' : E}, fits c (.enq k e) → ¬ fits c (.deq k' e'))
    (hfits : ∀ c ∈ claims V.put tr, ∀ k, fits c.call (.enq k (V.elem c.call)))
    (hfits' : ∀ c ∈ claims V.take tr, ∀ k e, fits c.call (.deq k e))
    (hret : ∀ {tr₁ tr₂ t id c v}, tr = tr₁ ++ .ret t id c v :: tr₂ → V.LinSpec q₀ cap tr₁ →
      (∃ a, (id, a) ∈ (V.lin q₀ tr₁).acts ∧ returns c v (some a)) ∨
        ((∀ d ∈ claims V.put tr₁, d.id ≠ id) ∧ (∀ d ∈ claims V.take tr₁, d.id ≠ id) ∧
          returns c v none)) :
    Linearized cap q₀ fits returns tr (V.lin q₀ tr).acts := by
  have hspec : V.LinSpec q₀ cap tr := QueueOps.linSpec hb
  have hcalled : ∀ {take : (o : Op) → Res o → Option π}, ∀ c ∈ claims take tr,
      .call c.thread c.id c.call ∈ tr := by
    intro take c hc
    obtain ⟨o, r, he, -⟩ := exists_op_of_mem_claims hc
    exact h.op_called he
  have hnodup : ((V.lin q₀ tr).acts.map Prod.fst).Nodup := by
    rw [hspec.ids.nodup_iff, List.nodup_append]
    refine ⟨hput, htake, fun i hi j hj hij => ?_⟩
    obtain ⟨c, hc, rfl⟩ := List.mem_map.1 hi
    obtain ⟨d, hd, rfl⟩ := List.mem_map.1 hj
    -- One call would both put an element in and take one out.
    have hcall := (h.call_unique (hcalled c hc) (hij ▸ hcalled d hd)).2
    have hc' := hfits c hc 0
    rw [hcall] at hc'
    exact hapart hc' (hfits' d hd 0 (V.elem c.call))
  refine ⟨⟨_, _, hspec.legal⟩, hnodup, fun {id a} ha => ?_, fun {t id c v} hr => ?_, ?_⟩
  · rcases hspec.mem ha with ⟨c, hc, rfl, k, rfl⟩ | ⟨c, hc, rfl, k, x, rfl⟩
    · exact ⟨_, _, hcalled c hc, hfits c hc k⟩
    · exact ⟨_, _, hcalled c hc, hfits' c hc k x⟩
  · obtain ⟨tr₁, tr₂, rfl⟩ := List.append_of_mem hr
    have h₁ : V.LinSpec q₀ cap tr₁ :=
      QueueOps.linSpec fun htr => hb (by rw [htr, List.append_assoc])
    rcases hret rfl h₁ with ⟨a, ha, hreturns⟩ | ⟨hnp, hnt, hreturns⟩
    · exact .inl ⟨a, QueueOps.mem_lin_append ha _, hreturns⟩
    · refine .inr ⟨fun a ha => ?_, hreturns⟩
      have hover : ∀ e ∈ Event.ret t id c v :: tr₂, e.id = id → e = .ret t id c v := by
        intro e he hid
        rcases List.mem_cons.1 he with rfl | he
        · rfl
        · exact absurd hid (h.over e he)
      have hnone : ∀ {take : (o : Op) → Res o → Option π}, (∀ d ∈ claims take tr₁, d.id ≠ id) →
          ∀ d ∈ claims take (tr₁ ++ .ret t id c v :: tr₂), d.id ≠ id := by
        intro take hno d hd hid
        rw [claims_append] at hd
        rcases List.mem_append.1 hd with hd | hd
        · exact hno d hd hid
        · obtain ⟨o, r, he, -⟩ := exists_op_of_mem_claims hd
          cases hover _ he hid
      rcases hspec.mem_ids.1 (List.mem_map_of_mem ha) with ⟨d, hd, hid⟩ | ⟨d, hd, hid⟩
      · exact hnone hnp d hd hid
      · exact hnone hnt d hd hid
  · rintro tr₁ tr₂ tr₃ t i c v u j d a b rfl ha hb'
    have hsplit : (tr₁ ++ .ret t i c v :: tr₂) ++ .call u j d :: tr₃ =
        tr₁ ++ .ret t i c v :: (tr₂ ++ .call u j d :: tr₃) := by simp
    have h₁ : V.LinSpec q₀ cap (tr₁ ++ .ret t i c v :: tr₂) :=
      QueueOps.linSpec fun {tr₄ tr₅} htr =>
        @hb _ (tr₅ ++ .call u j d :: tr₃) (by rw [htr, List.append_assoc])
    -- The first call has had its effect by then, the second one has not.
    have ha₁ : (i, a) ∈ (V.lin q₀ (tr₁ ++ .ret t i c v :: tr₂)).acts := by
      refine hspec.mem_of_over h₁ hnodup (fun e he => ?_) ha
      rw [hsplit] at h
      exact h.over e (List.mem_append_right _ he)
    obtain ⟨L, hL⟩ := V.lin_append q₀ (tr₁ ++ .ret t i c v :: tr₂) (.call u j d :: tr₃)
    rw [hL] at hb' ⊢
    have hb₁ : (j, b) ∈ L := by
      refine (List.mem_append.1 hb').resolve_left fun hb₁ => ?_
      obtain ⟨e, he, hid⟩ := h₁.exists_event hb₁
      exact Nat.lt_irrefl _ (hid ▸ h.new e he)
    exact (List.singleton_sublist.2 ha₁).append (List.singleton_sublist.2 hb₁)

end Conc
