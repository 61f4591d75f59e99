import RingBuf.Mpsc.Codes
import RingBuf.Query.Answers
import RingBuf.Spsc.Fifo

/-!
# Queries of the two rings

Both counters of an Spsc ring, and of an Mpsc ring in every timely run, are the words of the
numbers of elements pushed and popped (`Spsc.counts`, `Mpsc.counts`), so the steady queries of both
kinds answer right (`queries_in_range`). A query that other threads' calls come between need not
(`queries_not`).
-/

namespace RingBuf

open Conc Word LawfulWord

variable {Tid : Type} {r : Ring SizeT}

/-- The position that the head of an Spsc ring has reached, from `p` with the elements `q₀`. -/
def Spsc.headPos {n : Nat} (p : Nat) (q₀ : List Elem) (tr : List (Spsc.Ev Tid n)) : Nat :=
  p + (queue q₀ tr).length

/-- The position that its tail has reached. -/
def Spsc.tailPos {n : Nat} (p : Nat) (tr : List (Spsc.Ev Tid n)) : Nat := p + pops tr

/-- The position that the head of an Mpsc ring has reached. -/
def Mpsc.headPos {n : Nat} (tr : List (Mpsc.Ev Tid n)) : Nat := (pushClaims tr).length

/-- The position that its tail has reached. -/
def Mpsc.tailPos {n : Nat} (tr : List (Mpsc.Ev Tid n)) : Nat := (popClaims tr).length

theorem putHead_or_putTail (o : Op SizeT) (x : o.Res) :
    putHead o x = none ∨ putTail o x = none := by
  cases o with
  | storeHead => exact .inr rfl
  | _ => exact .inl rfl

theorem takeHead_or_putTail (o : Op SizeT) (x : o.Res) :
    takeHead o x = none ∨ putTail o x = none := by
  cases o with
  | casHead => exact .inr rfl
  | _ => exact .inl rfl

variable [DecidableEq Tid] {m₀ : Mem SizeT Tid}

theorem Spsc.counts {producer consumer : Tid} {p : Nat} {q₀ : List Elem}
    (hs : Start r producer consumer p q₀ m₀) :
    Counts r (proto r) (sys r producer consumer) m₀ (headPos p q₀) (tailPos p) fun _ => True where
  follows := follows r producer consumer
  exec_eq he := he
  counters := ⟨_, inv_inductive hs, fun tr m R h _ =>
    ⟨h.2.head, h.2.tail, Nat.add_le_add_left h.2.le p,
      (Nat.add_le_add_left h.2.room p).trans_eq (Nat.add_assoc ..).symm⟩⟩
  pushed_le tr tr' := Nat.add_le_add_left (length_queue_le tr') p
  popped_le tr tr' := Nat.add_le_add_left (length_claims_le tr') p
  one tr e := by
    rcases claims_snoc_or putHead_or_putTail tr e with h | h
    · left
      rw [headPos, headPos, queue_same h]
    · exact .inr (congrArg (fun cs => p + cs.length) h)
  of_append _ := trivial

theorem Mpsc.counts (hf : Fresh r m₀) :
    Counts r (proto r) (sys r Tid) m₀ headPos tailPos Timely where
  follows := follows r Tid
  exec_eq he := he
  counters := ⟨_, watched_inductive hf, fun tr m R h hb =>
    ⟨h.words.head, h.words.tail, (h.counted hb).le, (h.counted hb).room⟩⟩
  pushed_le tr tr' := length_claims_le tr'
  popped_le tr tr' := length_claims_le tr'
  one tr e := by
    rcases claims_snoc_or takeHead_or_putTail tr e with h | h
    · exact .inl (congrArg List.length h)
    · exact .inr (congrArg List.length h)
  of_append h := h.of_append

/-- **Queries that no pop overtakes stay in range**, on a ring of either kind and whoever asks. -/
theorem queries_in_range (r : Ring SizeT) :
    (∀ (producer consumer : Tid) (p : Nat) (q₀ : List Elem) (m₀ : Mem SizeT Tid) tr cf,
      Spsc.Start r producer consumer p q₀ m₀ →
      Run ((Spsc.sys r producer consumer).watch (Spsc.query r)) (.start m₀) tr cf →
      Steady (Spsc.headPos p q₀) (Spsc.tailPos p) tr →
      Right r (Spsc.headPos p q₀) (Spsc.tailPos p) tr) ∧
    ∀ (m₀ : Mem SizeT Tid) tr cf,
      Run ((Mpsc.sys r Tid).watch (Mpsc.query r)) (.start (getBuf r .mpscSlot m₀)) tr cf →
      Mpsc.Timely (watched tr) → Steady Mpsc.headPos Mpsc.tailPos tr →
      Right r Mpsc.headPos Mpsc.tailPos tr :=
  ⟨fun _ _ _ _ _ _ _ hs h hsteady => (Spsc.counts hs).right Query.wp_prog h trivial hsteady,
    fun _ _ _ h hb hsteady =>
      (Mpsc.counts (Mpsc.fresh_getBuf _)).right Query.wp_prog h hb hsteady⟩

/-! ## A run that is steady, and runs that are not -/

omit [DecidableEq Tid] in
/-- Queries are steady when nothing is pushed or popped from the first one on. -/
theorem steady_of_settled {Call Ret : Type} {pushed popped : List (RingEv Tid Call Ret) → Nat}
    {before after : List (QueryEv Tid Call Ret)} (hbefore : ∀ e ∈ before, e.watched?.isSome)
    (hafter : watched after = []) (hle : popped (watched before) ≤ pushed (watched before)) :
    Steady pushed popped (before ++ after) := by
  intro tr₁ tr₂ t id q ⟨h, d, tr₃, htr⟩
  -- The head is loaded in the second part.
  have hsplit : ∃ tr₄, tr₁ = before ++ tr₄ ∧
      after = tr₄ ++ .op t id (.inr q) .loadHead h :: tr₂ ++
        .op t id (.inr q) .loadTail d :: tr₃ := by
    rw [List.append_assoc] at htr
    rcases List.append_eq_append_iff.1 htr with ⟨tr₄, h₁, h₂⟩ | ⟨tr₄, h₁, h₂⟩
    · exact ⟨tr₄, h₁, by rw [h₂, List.append_assoc]⟩
    · cases tr₄ with
      | nil => exact ⟨[], by simpa using h₁.symm, by simpa using h₂.symm⟩
      | cons e tr₄ =>
        obtain rfl : .op t id (.inr q) .loadHead h = e := (List.cons.inj h₂).1
        have hmem := hbefore (.op t id (.inr q) .loadHead h) (by simp [h₁])
        exact absurd hmem Bool.false_ne_true
  obtain ⟨tr₄, rfl, rfl⟩ := hsplit
  have hnil : watched tr₄ = [] ∧ watched tr₂ = [] := by
    rw [watched_append, watched_loadHead, watched_append] at hafter
    exact List.append_eq_nil_iff.1 (List.append_eq_nil_iff.1 hafter).1
  have hquiet : ∀ a b, tr₂ = a ++ b → watched (before ++ tr₄ ++ a) = watched before := by
    intro a b hab
    have ha : watched a = [] := by
      have h₂ := hnil.2
      rw [hab, watched_append] at h₂
      exact (List.append_eq_nil_iff.1 h₂).1
    rw [watched_append, watched_append, hnil.1, ha, List.append_nil, List.append_nil]
  have h₁ : watched (before ++ tr₄) = watched before := by
    rw [watched_append, hnil.1, List.append_nil]
  have h₂ := hquiet tr₂ [] (List.append_nil _).symm
  cases q with
  | isEmpty =>
    refine ⟨by rw [h₁, h₂]; omega, fun _ a b hab hlt => ?_⟩
    rw [h₂, hquiet a b hab] at hlt
    exact absurd hlt (lt_irrefl _)
  | capacity => trivial
  | _ =>
    show popped _ ≤ pushed _
    rw [h₁, h₂]
    exact hle

section Asking

variable {Call Ret : Type} {body : Call → RingProg SizeT Ret}
  {allow : (Tid → Option Call) → Tid → Call → Prop} {look : Query → RingProg SizeT Answer}

/-- Pushes and pops, as calls of a system with queries. -/
def moves (cs : List (Tid × Call)) : List (Tid × (Call ⊕ Query)) := cs.map fun x => (x.1, .inl x.2)

/-- Thread `t` asks `q` after the calls `cs`, and between its two loads the calls `cs'` are made. -/
def asked (B : Call ⊕ Query → RingProg SizeT (Ret ⊕ Answer)) (cs cs' : List (Tid × Call)) (t : Tid)
    (q : Query) (m : Mem SizeT Tid) : List (QueryEv Tid Call Ret) :=
  let m₁ := seqState exec B (moves cs) m
  let m₂ := seqState exec B (moves cs') m₁
  seqTrace exec B (moves cs) 0 m ++ (.call t (0 + cs.length) (.inr q) ::
    opEvents t (0 + cs.length) (.inr q) [⟨.loadHead, m₁.head⟩] ++
    seqTrace exec B (moves cs') (0 + cs.length + 1) m₁ ++
    opEvents t (0 + cs.length) (.inr q) [⟨.loadTail, m₂.tail⟩])

/-- What it is told. -/
def told (B : Call ⊕ Query → RingProg SizeT (Ret ⊕ Answer)) (r : Ring SizeT)
    (cs cs' : List (Tid × Call)) (q : Query) (m : Mem SizeT Tid) : Answer :=
  let m₁ := seqState exec B (moves cs) m
  q.answer r m₁.head (seqState exec B (moves cs') m₁).tail

theorem run_asked {t : Tid} {q : Query} {cs cs' : List (Tid × Call)}
    (hlook : look q = twoLoads (q.answer r)) (ht : ∀ x ∈ cs', x.1 ≠ t)
    (ha : ∀ x ∈ cs ++ cs', allow (fun _ => none) x.1 x.2) (m : Mem SizeT Tid) :
    ∃ cf, Run ((Sys.ofFun exec body allow).watch look) (.start m)
      (asked ((Sys.ofFun exec body allow).watch look).body cs cs' t q m ++
        [.ret t (0 + cs.length) (.inr q)
          (.inr (told ((Sys.ofFun exec body allow).watch look).body r cs cs' q m))]) cf := by
  let S := (Sys.ofFun exec body allow).watch look
  let m₁ := seqState exec S.body (moves cs) m
  let m₂ := seqState exec S.body (moves cs') m₁
  let n := 0 + cs.length
  let p : RingProg SizeT (Ret ⊕ Answer) :=
    .op .loadTail fun d => .ret (.inr (q.answer r m₁.head d))
  let th : Tid → Thread (Op SizeT) Op.Res Empty (Call ⊕ Query) (Ret ⊕ Answer) :=
    Function.update (fun _ => .idle) t (.run n (.inr q) p)
  have hself : th t = .run n (.inr q) p := Function.update_self ..
  have hother : ∀ u ≠ t, th u = .idle := fun u hu => Function.update_of_ne hu ..
  have hth : ∀ u, (th u).call?.bind Sum.getLeft? = none := by
    intro u
    by_cases hu : u = t
    · rw [hu, hself]
      rfl
    · rw [hother u hu]
      rfl
  have hload : Along S t (S.body (.inr q)) m₁ [⟨.loadHead, m₁.head⟩] p m₁ := by
    have hbody : S.body (.inr q) = .op .loadHead fun h =>
        .op .loadTail fun d => .ret (.inr (q.answer r h d)) := by
      show look q >>= _ = _
      rw [hlook]
      rfl
    rw [hbody]
    exact .op rfl .refl
  have hfinish : Alone S t p m₂ [⟨.loadTail, m₂.tail⟩] (.inr (q.answer r m₁.head m₂.tail)) m₂ :=
    .op rfl .ret
  have h₁ : Run S (.start m) _ ⟨m₁, fun _ => .idle, n⟩ :=
    Run.watch_calls cs (fun _ _ => rfl) (fun _ => rfl)
      (fun x hx => ha x (List.mem_append_left _ hx)) 0 m
  have h₂ : Run S ⟨m₁, fun _ => .idle, n⟩ _ ⟨m₁, th, n + 1⟩ := Run.enter rfl trivial hload
  have h₃ := h₂.trans (Run.watch_calls cs' (fun x hx => hother _ (ht x hx)) hth
    (fun x hx => ha x (List.mem_append_right _ hx)) (n + 1) m₁)
  have h₄ := h₃.trans (Run.finish hfinish hself rfl)
  rw [asked, List.append_assoc, List.append_assoc]
  exact ⟨_, h₁.trans h₄⟩

end Asking

/-- Thread `2` asks; thread `0` is the producer, thread `1` the consumer. -/
def spscAsked (cs cs' : List (Fin 3 × Spsc.Call tinyRing.objSize)) (q : Query) :
    List (QueryEv (Fin 3) (Spsc.Call tinyRing.objSize) Spsc.Out) :=
  asked ((Spsc.sys tinyRing 0 1).watch (Spsc.query tinyRing)).body cs cs' 2 q
    (getBuf tinyRing .noSlot .zero)

def mpscAsked (cs cs' : List (Fin 3 × Mpsc.Call tinyRing.objSize)) (q : Query) :
    List (QueryEv (Fin 3) (Mpsc.Call tinyRing.objSize) Ret) :=
  asked ((Mpsc.sys tinyRing (Fin 3)).watch (Mpsc.query tinyRing)).body cs cs' 2 q
    (getBuf tinyRing .mpscSlot .zero)

theorem run_spscAsked (cs cs' : List (Fin 3 × Spsc.Call tinyRing.objSize)) {q : Query}
    (hq : q ≠ .capacity) (ha : ∀ x ∈ cs ++ cs', x.1 = if x.2.pushes then 0 else 1) :
    ∃ cf, Run ((Spsc.sys tinyRing 0 1).watch (Spsc.query tinyRing))
      (.start (getBuf tinyRing .noSlot .zero)) (spscAsked cs cs' q ++
        [.ret 2 (0 + cs.length) (.inr q) (.inr (told
          ((Spsc.sys tinyRing 0 1).watch (Spsc.query tinyRing)).body tinyRing cs cs' q
          (getBuf tinyRing .noSlot .zero)))]) cf := by
  refine run_asked ?_ (fun x hx h2 => ?_) ha _
  · cases q with
    | capacity => exact absurd rfl hq
    | _ => rfl
  · have h := ha x (List.mem_append_right _ hx)
    rw [h2] at h
    split at h
    · cases h
    · cases h

theorem run_mpscAsked (cs cs' : List (Fin 3 × Mpsc.Call tinyRing.objSize)) {q : Query}
    (hq : q ≠ .capacity) (ht : ∀ x ∈ cs', x.1 ≠ 2) :
    ∃ cf, Run ((Mpsc.sys tinyRing (Fin 3)).watch (Mpsc.query tinyRing))
      (.start (getBuf tinyRing .mpscSlot .zero)) (mpscAsked cs cs' q ++
        [.ret 2 (0 + cs.length) (.inr q) (.inr (told
          ((Mpsc.sys tinyRing (Fin 3)).watch (Mpsc.query tinyRing)).body tinyRing cs cs' q
          (getBuf tinyRing .mpscSlot .zero)))]) cf := by
  refine run_asked ?_ ht (fun _ _ _ _ _ hu => nomatch hu) _
  cases q with
  | capacity => exact absurd rfl hq
  | _ => rfl

/-- After two pushes and a pop, thread `2` asks for the size. -/
theorem queries_in_range_size :
    (∃ v, Right tinyRing (Spsc.headPos 0 []) (Spsc.tailPos 0)
      (spscAsked [(0, .push []), (0, .push []), (1, .pop 0)] [] .size ++
        [.ret 2 3 (.inr .size) (.inr v)])) ∧
    ∃ v, Right tinyRing Mpsc.headPos Mpsc.tailPos
      (mpscAsked [(0, .push []), (0, .push []), (1, .pop none 0)] [] .size ++
        [.ret 2 3 (.inr .size) (.inr v)]) := by
  constructor
  · obtain ⟨cf, hrun⟩ := run_spscAsked [(0, .push []), (0, .push []), (1, .pop 0)] []
      (q := .size) (by decide) (by decide)
    refine ⟨_, (queries_in_range tinyRing).1 0 1 0 [] _ _ cf (Spsc.start_getBuf rfl rfl) hrun ?_⟩
    rw [spscAsked, asked, List.append_assoc]
    exact steady_of_settled (by decide) rfl (by decide)
  · obtain ⟨cf, hrun⟩ := run_mpscAsked [(0, .push []), (0, .push []), (1, .pop none 0)]
      [] (q := .size) (by decide) (by decide)
    refine ⟨_, (queries_in_range tinyRing).2 .zero _ cf hrun (Mpsc.timely_of_lt (by decide)) ?_⟩
    rw [mpscAsked, asked, List.append_assoc]
    exact steady_of_settled (by decide) rfl (by decide)

/-- In some run query `q`, call `1` of thread `2`, is given an answer that is not right. -/
def Wrong {Call Ret : Type}
    (S : Sys (Op SizeT) Op.Res Empty (Fin 3) Call Ret (Mem SizeT (Fin 3)))
    (m₀ : Mem SizeT (Fin 3)) (pushed popped : List (RingEv (Fin 3) Call Ret) → Nat) (q : Query) :
    Prop :=
  ∃ tr v cf, Run (S.watch (Spsc.query tinyRing)) (.start m₀)
      (tr ++ [.ret 2 1 (.inr q) (.inr v)]) cf ∧
    ¬ q.Right tinyRing pushed popped tr 2 1 v

/-- Between the loads of a query of a ring with one element, a pop, a push and a pop. -/
def popPushPop {C : Type} (push pop : C) : List (Fin 3 × C) := [(1, pop), (0, push), (1, pop)]

def SpscWrong (q : Query) : Prop :=
  Wrong (Spsc.sys tinyRing 0 1) (getBuf tinyRing .noSlot .zero) (Spsc.headPos 0 [])
    (Spsc.tailPos 0) q

def MpscWrong (q : Query) : Prop :=
  Wrong (Mpsc.sys tinyRing (Fin 3)) (getBuf tinyRing .mpscSlot .zero) Mpsc.headPos Mpsc.tailPos q

theorem spsc_wrong : SpscWrong .size ∧ SpscWrong .isFull ∧ SpscWrong .isEmpty := by
  refine ⟨?_, ?_, ?_⟩
  · -- The tail that is loaded is one past the head: the size is `2 ^ 64 - 1`.
    obtain ⟨cf, hrun⟩ := run_spscAsked [(0, .push [])]
      (popPushPop (.push []) (.pop 0)) (q := .size) (by decide) (by decide)
    refine ⟨_, _, cf, hrun, ?_⟩
    rintro ⟨n, hv, hle⟩
    revert hle
    rw [← Answer.size.inj hv]
    decide
  · obtain ⟨cf, hrun⟩ := run_spscAsked [(0, .push [])]
      (popPushPop (.push []) (.pop 0)) (q := .isFull) (by decide) (by decide)
    refine ⟨_, _, cf, hrun, fun h => ?_⟩
    obtain ⟨k, hk, hfull⟩ := Moment.after (h (by decide)) (by decide)
    revert k
    decide
  · -- One element has been replaced by another.
    obtain ⟨cf, hrun⟩ := run_spscAsked [(0, .push [])]
      [(0, .push []), (1, .pop 0)] (q := .isEmpty) (by decide) (by decide)
    refine ⟨_, _, cf, hrun, fun h => ?_⟩
    obtain ⟨k, hk, hempty⟩ := Moment.after (h (by decide)) (by decide)
    revert k
    decide

theorem mpsc_wrong : MpscWrong .size ∧ MpscWrong .isFull ∧ MpscWrong .isEmpty := by
  refine ⟨?_, ?_, ?_⟩
  · obtain ⟨cf, hrun⟩ := run_mpscAsked [(0, .push [])]
      (popPushPop (.push []) (.pop none 0)) (q := .size) (by decide) (by decide)
    refine ⟨_, _, cf, hrun, ?_⟩
    rintro ⟨n, hv, hle⟩
    revert hle
    rw [← Answer.size.inj hv]
    decide
  · obtain ⟨cf, hrun⟩ := run_mpscAsked [(0, .push [])]
      (popPushPop (.push []) (.pop none 0)) (q := .isFull) (by decide) (by decide)
    refine ⟨_, _, cf, hrun, fun h => ?_⟩
    obtain ⟨k, hk, hfull⟩ := Moment.after (h (by decide)) (by decide)
    revert k
    decide
  · obtain ⟨cf, hrun⟩ := run_mpscAsked [(0, .push [])]
      [(0, .push []), (1, .pop none 0)] (q := .isEmpty) (by decide) (by decide)
    refine ⟨_, _, cf, hrun, fun h => ?_⟩
    obtain ⟨k, hk, hempty⟩ := Moment.after (h (by decide)) (by decide)
    revert k
    decide

/-- A query that pops overtake may find a ring of two to hold `2 ^ 64 - 1` elements, full with never
more than one in it, or empty with never none. -/
theorem queries_not : (SpscWrong .size ∧ SpscWrong .isFull ∧ SpscWrong .isEmpty) ∧
    MpscWrong .size ∧ MpscWrong .isFull ∧ MpscWrong .isEmpty :=
  ⟨spsc_wrong, mpsc_wrong⟩

end RingBuf
