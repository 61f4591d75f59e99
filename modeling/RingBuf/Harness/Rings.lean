import RingBuf.Block.Alone
import RingBuf.Block.Linear
import RingBuf.Harness.Sound
import RingBuf.Mpmc.Alone
import RingBuf.Mpmc.Linear
import RingBuf.Mpsc.Alone
import RingBuf.Mpsc.Linear
import RingBuf.Spsc.Alone
import RingBuf.Spsc.Linear

/-!
# The test programs on the four kinds of ring

Each of the four rings serves the test programs as long as it has had fewer than `2 ^ 63` elements,
so their threads find no fault in it (`mpmc_sound`, `mpsc_sound`, `spsc_sound`, `block_sound`), on a
Block ring as long as neither `main` has deleted it. `main` creates one consumer for an Mpsc ring,
and one producer and one consumer for an Spsc ring; under this rule the programs use the rings as
they have to be used (`MayCall`).
-/

namespace RingBuf

open Conc Bytes Word LawfulWord

namespace Harness

/-- A thread that is about to call the ring may do so. -/
def MayCall {Op : Type} {Res : Op → Type} {Lbl Tid Call Ret σ : Type} [DecidableEq Tid]
    (S : Sys Op Res Lbl Tid Call Ret σ)
    (cf : Config (Use Own Call) (Use.Res Own.Res Call Ret) Loop Tid Job Unit
      (TestWorld Op Res Lbl Tid Call Ret σ)) : Prop :=
  ∀ {t id j a k}, cf.thread t = .run id j (.op (.make a) k) →
    S.allow (fun u => (cf.shared.object.thread u).call?) t a

section MayCall

variable {Op : Type} {Res : Op → Type} {Lbl Tid Call Ret σ : Type} [DecidableEq Tid]
  {S : Sys Op Res Lbl Tid Call Ret σ} {s₀ : σ} {K : Kind Call Ret} {cs : Constants}
  {allow : (Tid → Option Job) → Tid → Job → Prop} {tr : List (TestEv Tid Call Ret)}
  {cf : Config (Use Own Call) (Use.Res Own.Res Call Ret) Loop Tid Job Unit
    (TestWorld Op Res Lbl Tid Call Ret σ)}

/-- A thread about to make a call is a producer about to push or a consumer about to pop, and a
thread inside a pop is a consumer. -/
theorem about_to_call
    {A : List (TestEv Tid Call Ret) → TestWorld Op Res Lbl Tid Call Ret σ →
      Roles Tid Job (Role Ret) → Prop}
    (h : Run (sys K cs S allow) (.start (.start s₀ fun _ => 0)) tr cf)
    (hA : InductiveUnder (proto K cs) (sys K cs S allow) (.start s₀ fun _ => 0)
      (fun tr w R => Using S s₀ (Role.inside K) w R ∧ Known cs tr w.own R) A) {t : Tid} {id : Nat}
    {j : Job} {a : Call} {k : Unit → TestProg Call Ret Unit}
    (ht : cf.thread t = .run id j (.op (.make a) k)) :
    ∃ R, A tr cf.shared R ∧ Using S s₀ (Role.inside K) cf.shared R ∧
      ((∃ o bs, j = .producer o ∧ a = K.push bs) ∨ j = .consumer ∧ a = K.pop sizeofObj) ∧
      ∃ l, R t = some ⟨id, j, l⟩ ∧ l.inside K = none ∧
        ∀ u x, R u = some x → x.role = .popping → x.call = .consumer := by
  obtain ⟨R, hF, -, ⟨hu, hknown⟩, hA⟩ :=
    (((using_inductive awaits).and known_inductive).and hA).run (follows S allow) h
  obtain ⟨l, hR, hw⟩ := (ht ▸ hF t : Follow (proto K cs) (.run id j (.op (.make a) k)) (R t)).run
  obtain ⟨l', hm, -⟩ := hw ()
  have hrole : RoleOf cs j l := hknown.role t _ hR
  have hpop : ∀ u x, R u = some x → x.role = .popping → x.call = .consumer := by
    intro u x hx hl
    have hrole := hknown.role u x hx
    rw [hl] at hrole
    cases hj : x.call with
    | producer o => exact (hj ▸ hrole : RoleOf cs (.producer o) (.popping : Role Ret)).elim
    | consumer => rfl
  refine ⟨R, hA, hu, ?_, l, hR, ?_, hpop⟩
  · cases hm with
    | push =>
      cases j with
      | producer o => exact .inl ⟨o, _, rfl, rfl⟩
      | consumer => exact hrole.elim
    | pop =>
      cases j with
      | producer o => exact hrole.elim
      | consumer => exact .inr ⟨rfl, rfl⟩
  · cases hm <;> rfl

end MayCall

/-! ## A run -/

section OneNumber

variable {Op : Type} {Res : Op → Type} {Lbl Tid Call Ret σ : Type} [DecidableEq Tid]
  {S : Sys Op Res Lbl Tid Call Ret σ} {s₀ s s' : σ} {K : Kind Call Ret} {cs : Constants}
  {allow : (Tid → Option Job) → Tid → Job → Prop} {t u : Tid} {o : Data} {v v' : Ret} {k : SizeT}
  {ops ops' : List ((o : Op) × Res o)} {w : TestWorld Op Res Lbl Tid Call Ret σ}

theorem exec_fetchAdd {c : Counter} (hw : w.own c = k) :
    (sys K cs S allow).exec t (.own (.fetchAdd c)) w k
      { w with own := Function.update w.own c (k + 1) } :=
  ⟨_, ⟨hw.symm, by rw [hw]⟩, rfl⟩

/-- A producer fills an object. -/
theorem along_produce (hw : w.own .pushed = k) (hk : k < cs.n) (ht : cs.timeTest = true) :
    Along (sys K cs S allow) t (produceLoop cs o) w
      [⟨.own (.fetchAdd .pushed), k⟩, ⟨.own (.stamp .pushed k), ()⟩] (pushLoop K (fillObj o text k))
      { w with own := Function.update w.own .pushed (k + 1) } := by
  refine .op (exec_fetchAdd hw) ?_
  show Along _ t (ite (k < cs.n) _ _ : TestProg Call Ret Unit) _ _ _ _
  rw [if_pos hk]
  show Along _ t (ite (cs.timeTest = true) _ _ : TestProg Call Ret Unit) _ _ _ _
  rw [if_pos ht]
  refine .op ⟨_, rfl, rfl⟩ ?_
  show Along _ _ (Prog.jump (Loop.push (setSeq (fillObj o text k) k))) _ _ _ _
  rw [show setSeq (fillObj o text k) k = fillObj o text k from setSeq_setSeq]
  exact .jump .refl

/-- A thread that finds no number left ends. -/
theorem alone_produce (hw : w.own .pushed = k) (hk : ¬ k < cs.n) :
    Alone (sys K cs S allow) t (produceLoop cs o) w [⟨.own (.fetchAdd .pushed), k⟩] ()
      { w with own := Function.update w.own .pushed (k + 1) } := by
  refine .op (exec_fetchAdd hw) ?_
  show Alone _ t (ite (k < cs.n) _ _ : TestProg Call Ret Unit) _ _ _ _
  rw [if_neg hk]
  exact .ret

theorem along_consume (hw : w.own .got = k) (hk : k < cs.n) :
    Along (sys K cs S allow) t (consumeLoop cs) w [⟨.own (.fetchAdd .got), k⟩] (popLoop K cs)
      { w with own := Function.update w.own .got (k + 1) } := by
  refine .op (exec_fetchAdd hw) ?_
  show Along _ t (ite (k < cs.n) _ _ : TestProg Call Ret Unit) _ _ _ _
  rw [if_pos hk]
  exact .jump .refl

theorem alone_consume (hw : w.own .got = k) (hk : ¬ k < cs.n) :
    Alone (sys K cs S allow) t (consumeLoop cs) w [⟨.own (.fetchAdd .got), k⟩] ()
      { w with own := Function.update w.own .got (k + 1) } := by
  refine .op (exec_fetchAdd hw) ?_
  show Alone _ t (ite (k < cs.n) _ _ : TestProg Call Ret Unit) _ _ _ _
  rw [if_neg hk]
  exact .ret

/-- One number, with the times. -/
def oneNumber : Constants := ⟨1, true⟩

omit [DecidableEq Tid] in
theorem created_job {n : Nat} {j : Job}
    {ops : List ((o : Use Own Call) × Use.Res Own.Res Call Ret o)} :
    created (.call t n j :: (opEvents t n j ops ++ [.ret t n j ()])) = [n] := by
  have hops :
      (opEvents t n j ops).filterMap (createdBy : TestEv Tid Call Ret → Option Nat) = [] := by
    refine List.filterMap_eq_nil_iff.2 fun e he => ?_
    obtain ⟨x, -, rfl⟩ := List.mem_map.1 he
    rfl
  show n :: List.filterMap createdBy (_ ++ _) = _
  rw [List.filterMap_append, hops]
  rfl

/-- A producer that pushes the one object, and then a consumer that pops it. -/
theorem run_one (allow : (Tid → Option Job) → Tid → Job → Prop)
    (ht : allow (fun _ => none) t (.producer o)) (hu : allow (fun _ => none) u .consumer)
    (hat : S.allow (fun _ => none) t (K.push (toBytes (fillObj o text 0))))
    (hau : S.allow (fun _ => none) u (K.pop sizeofObj))
    (hpush : Alone S t (S.body (K.push (toBytes (fillObj o text 0)))) s₀ ops v s)
    (hv : 0 ≤ K.rc v) (hpop : Alone S u (S.body (K.pop sizeofObj)) s ops' v' s')
    (hv' : 0 ≤ K.rc v') :
    ∃ tr cf, Run (sys K oneNumber S allow) (.start (.start s₀ fun _ => 0)) tr cf ∧
      created tr = [0, 1] ∧ .ret u 1 .consumer () ∈ tr ∧ ∀ t, cf.thread t = .idle := by
  have hend : ∀ w : TestWorld Op Res Lbl Tid Call Ret σ,
      w.own = Function.update (fun _ => 0) .pushed 1 →
      Alone (sys K oneNumber S allow) t (if K.rc v < 0 then .jump (.push (fillObj o text 0))
          else .jump (.produce (fillObj o text 0))) w [⟨.own (.fetchAdd .pushed), (1 : SizeT)⟩] ()
        { w with own := Function.update (fun _ => 0) .pushed 2 } := by
    intro w hw
    rw [if_neg (Int.not_lt.2 hv)]
    have halone :
        Alone (sys K oneNumber S allow) t (produceLoop oneNumber (fillObj o text 0)) w _ () _ :=
      alone_produce (k := 1) (by rw [hw]; rfl) (by decide)
    rw [hw, Function.update_idem] at halone
    exact .jump halone
  have hbegin : Along (sys K oneNumber S allow) t (thdWork oneNumber (.producer o))
      (.start s₀ fun _ => 0) _ (pushLoop K (fillObj o text 0)) _ :=
    along_produce (k := 0) rfl (by decide) rfl
  obtain ⟨past, h₁⟩ := Run.job (fun _ => .idle) 0 rfl ht hbegin rfl hat hpush hend
  have hend' : ∀ w : TestWorld Op Res Lbl Tid Call Ret σ,
      w.own = Function.update (Function.update (fun _ => 0) .pushed 2) .got 1 →
      Alone (sys K oneNumber S allow) u (if K.rc v' < 0 then .jump .pop
          else choseTestTypeComsumer oneNumber (ofBytes (K.buf v')) >>= fun _ => .jump .consume) w
        [⟨.own (.stamp .got (seq (ofBytes (K.buf v')))), ()⟩,
          ⟨.own (.fetchAdd .got), (1 : SizeT)⟩] ()
        { w with own := Function.update (Function.update (fun _ => 0) .pushed 2) .got 2 } := by
    intro w hw
    rw [if_neg (Int.not_lt.2 hv')]
    have halone : Alone (sys K oneNumber S allow) u (consumeLoop oneNumber) w _ () _ :=
      alone_consume (k := 1) (by rw [hw]; rfl) (by decide)
    rw [hw, Function.update_idem] at halone
    exact .op ⟨_, rfl, rfl⟩ (.jump halone)
  have hbegin' : Along (sys K oneNumber S allow) u (thdWork oneNumber .consumer)
      ⟨⟨s, fun _ => .idle, 1⟩, past, Function.update (fun _ => 0) .pushed 2⟩ _
      (popLoop K oneNumber) _ :=
    along_consume (k := 0) rfl (by decide)
  obtain ⟨past', h₂⟩ := Run.job (fun _ => .idle) 1 rfl hu hbegin' rfl hau hpop hend'
  refine ⟨_, _, h₁.trans h₂, ?_, ?_, fun _ => rfl⟩
  · rw [created_append, created_job, created_job]
    rfl
  · simp

end OneNumber

/-- A ring of two objects of the test programs. -/
def objRing : Ring SizeT := { tinyRing with objSize := sizeofObj }

/-- A position below `2 ^ 63` is returned as a number. -/
theorem toSsize_word_nonneg {k : Nat} (h : k < 2 ^ 63) : 0 ≤ toSsize (word k) := by
  have hk : toNat (word k) = k := by
    rw [toNat_word, Nat.mod_eq_of_lt (by omega)]
  rw [toSsize_of_lt (by rw [hk]; exact h)]
  exact Int.natCast_nonneg _

variable {Tid : Type} [DecidableEq Tid] {r : Ring SizeT} {cs : Constants} {m₀ : Mem SizeT Tid}

/-! ## Mpmc -/

def mpmc (n : Nat) : Kind (Mpmc.Call n) RingBuf.Ret := ⟨.push, .pop, Ret.rc, Ret.buf⟩

theorem mpmc_tells (n : Nat) : (mpmc n).Tells (2 ^ 63) Mpmc.Effect Mpmc.Returns where
  push_inj h := Mpmc.Call.push.inj h
  apart h := by cases h
  push_fits h := by
    cases h
    exact ⟨_, rfl⟩
  pop_fits h := by
    cases h
    exact ⟨_, _, rfl⟩
  pushed _ h := by
    cases h
    exact Int.natCast_nonneg _
  refused h := by
    cases h
    assumption
  popped h := by
    cases h
    exact ⟨‹_›, ‹_›⟩
  empty h := by
    cases h
    assumption

theorem mpmc_serves : Serves (Mpmc.sys r Tid) (getBuf r .mpmcSlot m₀) (mpmc r.objSize) (2 ^ 63)
    r.cap Mpmc.Effect Mpmc.Returns fun tr => ((Mpmc.queueOps r.objSize).lin [] tr).acts :=
  .of_queueOps (mpmc_tells _) fun h hlt => (Mpmc.fresh_getBuf m₀).linearized h hlt

/-- The events and configurations of the test programs on a ring. -/
abbrev TestConfig (Op : Type) (Res : Op → Type) (Lbl Tid Call Ret σ : Type) :=
  Config (Use Own Call) (Use.Res Own.Res Call Ret) Loop Tid Job Unit
    (TestWorld Op Res Lbl Tid Call Ret σ)

/-- **Mpmc**, with any number of producers and consumers. -/
theorem mpmc_sound {tr : List (TestEv Tid (Mpmc.Call r.objSize) RingBuf.Ret)}
    {cf : TestConfig (Op SizeT) Op.Res Empty Tid (Mpmc.Call r.objSize) RingBuf.Ret (Mem SizeT Tid)}
    (h : Run (sys (mpmc r.objSize) cs (Mpmc.sys r Tid) fun _ _ _ => True)
      (.start (.start (getBuf r .mpmcSlot m₀) fun _ => 0)) tr cf)
    (hn : toNat cs.n + 1 < 2 ^ 63) (hcr : toNat cs.n + (created tr).length ≤ 2 ^ 64) :
    Sound (mpmc r.objSize) cs tr cf ∧ MayCall (Mpmc.sys r Tid) cf :=
  ⟨sound mpmc_serves hn h hcr, fun _ => trivial⟩

theorem mpmc_push_one {args : List Byte} (h : args.length ≤ sizeofObj) :
    ∃ ops, Alone (Mpmc.sys objRing Bool) true (Mpmc.body objRing (.push args))
      (getBuf objRing .mpmcSlot .zero) ops ⟨0, []⟩
      (Mpmc.filled objRing (getBuf objRing .mpmcSlot .zero) args) := by
  have hrun : (Mpmc.body objRing (.push args)).run (exec true) (getBuf objRing .mpmcSlot .zero) =
      (⟨0, []⟩, Mpmc.filled objRing (getBuf objRing .mpmcSlot .zero) args) := by
    rw [Mpmc.body, Prog.run_bind, Mpmc.run_push h, if_neg (by decide), if_neg (by decide)]
    rfl
  have halone : Alone (Mpmc.sys objRing Bool) true (Mpmc.body objRing (.push args))
      (getBuf objRing .mpmcSlot .zero) _ _ _ := .ofFun _ _ _
  rw [hrun] at halone
  exact ⟨_, halone⟩

theorem mpmc_pop_one (args : List Byte) :
    ∃ ops v m, Alone (Mpmc.sys objRing Bool) false (Mpmc.body objRing (.pop sizeofObj))
      (Mpmc.filled objRing (getBuf objRing .mpmcSlot .zero) args) ops v m ∧ v.rc = 0 := by
  refine ⟨_, _, _, .ofFun _ _ _, ?_⟩
  have hseq : Mpmc.tailSeq objRing (Mpmc.filled objRing (getBuf objRing .mpmcSlot .zero) args :
      Mem SizeT Bool) = 1 := Function.update_self ..
  have hdif : dif (1 : SizeT) ((Mpmc.filled objRing (getBuf objRing .mpmcSlot .zero) args :
      Mem SizeT Bool).tail + 1) = 0 := by
    show dif (1 : SizeT) (0 + 1) = 0
    decide
  rw [Mpmc.body, Prog.run_bind, Mpmc.run_pop (show sizeofObj ≤ objRing.objSize from Nat.le_refl _),
    hseq, hdif]
  rfl

/-- The whole programs with one object. -/
theorem mpmc_sound_one : ∃ tr cf, .ret false 1 .consumer () ∈ tr ∧ (∀ t, cf.thread t = .idle) ∧
    Sound (mpmc objRing.objSize) oneNumber tr cf ∧ MayCall (Mpmc.sys objRing Bool) cf := by
  obtain ⟨ops, hpush⟩ := mpmc_push_one (Nat.le_of_eq (length_toBytes (fillObj (fun _ => 0) text 0)))
  obtain ⟨ops', v, m, hpop, hv⟩ := mpmc_pop_one (toBytes (fillObj (fun _ => 0) text 0))
  obtain ⟨tr, cf, h, hcr, hret, hidle⟩ := run_one (K := mpmc objRing.objSize) (fun _ _ _ => True)
    trivial trivial trivial trivial hpush (Int.le_refl 0) hpop (Int.le_of_eq hv.symm)
  exact ⟨tr, cf, hret, hidle, mpmc_sound h (by decide) (by rw [hcr]; decide)⟩

/-! ## Mpsc -/

/-- The consumer uses no other ring. -/
def mpsc (n : Nat) : Kind (Mpsc.Call n) RingBuf.Ret := ⟨.push, .pop none, Ret.rc, Ret.buf⟩

theorem mpsc_tells (n : Nat) : (mpsc n).Tells (2 ^ 63) Mpsc.Effect Mpsc.Returns where
  push_inj h := Mpsc.Call.push.inj h
  apart h := by cases h
  push_fits h := by
    cases h
    exact ⟨_, rfl⟩
  pop_fits h := by
    cases h
    exact ⟨_, _, rfl⟩
  pushed _ h := by
    cases h
    exact Int.natCast_nonneg _
  refused h := by
    cases h
    assumption
  popped h := by
    cases h
    exact ⟨‹_›, ‹_›⟩
  empty h := by
    cases h
    assumption

theorem mpsc_serves : Serves (Mpsc.sys r Tid) (getBuf r .mpscSlot m₀) (mpsc r.objSize) (2 ^ 63)
    r.cap Mpsc.Effect Mpsc.Returns fun tr => ((Mpsc.queueOps r.objSize).lin [] tr).acts :=
  .of_queueOps (mpsc_tells _) fun h hlt => (Mpsc.fresh_getBuf m₀).linearized h hlt

/-- **Mpsc**, with any number of producers and one consumer at a time. -/
theorem mpsc_sound {tr : List (TestEv Tid (Mpsc.Call r.objSize) RingBuf.Ret)}
    {cf : TestConfig (Op SizeT) Op.Res Empty Tid (Mpsc.Call r.objSize) RingBuf.Ret (Mem SizeT Tid)}
    (h : Run (sys (mpsc r.objSize) cs (Mpsc.sys r Tid)
        fun cur _ j => j.consumes = true → ∀ u j', cur u = some j' → j'.consumes = false)
      (.start (.start (getBuf r .mpscSlot m₀) fun _ => 0)) tr cf)
    (hn : toNat cs.n + 1 < 2 ^ 63) (hcr : toNat cs.n + (created tr).length ≤ 2 ^ 64) :
    Sound (mpsc r.objSize) cs tr cf ∧ MayCall (Mpsc.sys r Tid) cf := by
  refine ⟨sound mpsc_serves hn h hcr, fun {t id j a k} ht ha u b hb => ?_⟩
  obtain ⟨R, halone, hu, hcall, l, hR, hl, hpops⟩ := about_to_call h
    (alone_inductive (fun j => j.consumes = true) fun hal hj u j' hj' =>
      Bool.eq_false_iff.1 (hal hj u j' hj')) ht
  rcases hcall with ⟨o, bs, rfl, rfl⟩ | ⟨rfl, rfl⟩
  · cases ha
  -- A thread inside a pop would be another consumer.
  have hin := (hu.call? u).symm.trans hb
  cases hx : R u with
  | none =>
    rw [hx] at hin
    cases hin
  | some x =>
    rw [hx] at hin
    cases hrole : x.role with
    | pushing i bs =>
      have hin : Role.inside (mpsc r.objSize) x.role = some b := hin
      rw [hrole] at hin
      obtain rfl := Option.some.inj hin
      rfl
    | popping =>
      have hcons : x.call.consumes = true := by
        rw [hpops u x hx hrole]
        rfl
      obtain rfl : u = t := halone u t x _ hx hR hcons rfl
      obtain rfl := Option.some.inj (hx.symm.trans hR)
      rw [show l = .popping from hrole] at hl
      cases hl
    | _ =>
      have hin : Role.inside (mpsc r.objSize) x.role = some b := hin
      rw [hrole] at hin
      cases hin

theorem mpsc_push_one {args : List Byte} (h : args.length ≤ sizeofObj) :
    ∃ ops, Alone (Mpsc.sys objRing Bool) true (Mpsc.body objRing (.push args))
      (getBuf objRing .mpscSlot .zero) ops ⟨0, []⟩
      (Mpsc.filled objRing (getBuf objRing .mpscSlot .zero) args) := by
  have hrun : (Mpsc.body objRing (.push args)).run (exec true) (getBuf objRing .mpscSlot .zero) =
      (⟨0, []⟩, Mpsc.filled objRing (getBuf objRing .mpscSlot .zero) args) := by
    rw [Mpsc.body, Prog.run_bind, Mpsc.run_push h, if_neg (by decide)]
    rfl
  have halone : Alone (Mpsc.sys objRing Bool) true (Mpsc.body objRing (.push args))
      (getBuf objRing .mpscSlot .zero) _ _ _ := .ofFun _ _ _
  rw [hrun] at halone
  exact ⟨_, halone⟩

theorem mpsc_pop_one (args : List Byte) :
    ∃ ops v m, Alone (Mpsc.sys objRing Bool) false (Mpsc.body objRing (.pop none sizeofObj))
      (Mpsc.filled objRing (getBuf objRing .mpscSlot .zero) args) ops v m ∧ v.rc = 0 := by
  refine ⟨_, _, _, .ofFun _ _ _, ?_⟩
  have hhead :
      Mpsc.testedHead false (Mpsc.filled objRing (getBuf objRing .mpscSlot .zero) args) = 1 :=
    if_pos rfl
  have hslot : Mpsc.tailStat objRing (Mpsc.filled objRing (getBuf objRing .mpscSlot .zero) args :
      Mem SizeT Bool) = slotValid := Function.update_self ..
  have hne : (1 : SizeT) ≠ (Mpsc.filled objRing (getBuf objRing .mpscSlot .zero) args :
      Mem SizeT Bool).tail := by
    show (1 : SizeT) ≠ 0
    decide
  show ((Mpsc.popMpscRingBuf objRing sizeofObj >>=
    fun out => .ret (⟨out.1, out.2⟩ : RingBuf.Ret)).run _ _).1.rc = 0
  rw [Prog.run_bind, Mpsc.run_pop (show sizeofObj ≤ objRing.objSize from Nat.le_refl _), hhead,
    hslot, if_neg hne, if_neg (by decide)]
  rfl

theorem mpsc_sound_one : ∃ tr cf, .ret false 1 .consumer () ∈ tr ∧ (∀ t, cf.thread t = .idle) ∧
    Sound (mpsc objRing.objSize) oneNumber tr cf ∧ MayCall (Mpsc.sys objRing Bool) cf := by
  obtain ⟨ops, hpush⟩ := mpsc_push_one (Nat.le_of_eq (length_toBytes (fillObj (fun _ => 0) text 0)))
  obtain ⟨ops', v, m, hpop, hv⟩ := mpsc_pop_one (toBytes (fillObj (fun _ => 0) text 0))
  obtain ⟨tr, cf, h, hcr, hret, hidle⟩ := run_one (K := mpsc objRing.objSize)
    (fun cur _ j => j.consumes = true → ∀ u j', cur u = some j' → j'.consumes = false)
    (by simp) (by simp) (fun _ _ _ h => by cases h) (fun _ _ _ h => by cases h) hpush
    (Int.le_refl 0) hpop (Int.le_of_eq hv.symm)
  exact ⟨tr, cf, hret, hidle, mpsc_sound h (by decide) (by rw [hcr]; decide)⟩

/-! ## Spsc -/

def spsc (n : Nat) : Kind (Spsc.Call n) Spsc.Out where
  push := .push
  pop := .pop
  rc
    | .code rc _ => rc
    | _ => 0
  buf
    | .code _ buf => buf
    | _ => []

theorem spsc_tells (n : Nat) : (spsc n).Tells (2 ^ 63) Spsc.Effect (Spsc.Returns 0) where
  push_inj h := Spsc.Call.push.inj h
  apart h := by cases h
  push_fits h := by
    cases h with
    | put _ => exact ⟨_, by rw [← Spsc.Call.elem_push]; rfl⟩
    | take hc => cases hc
  pop_fits h := by
    cases h with
    | put hc => cases hc
    | take _ => exact ⟨_, _, rfl⟩
  pushed hk h := by
    cases h
    exact toSsize_word_nonneg (by rwa [Nat.zero_add])
  refused h := by
    cases h with
    | refused hr =>
      cases hr with
      | pushTooLarge => exact (by decide : ringbufPushSizeTooLarge < 0)
      | full => exact (by decide : ringbufFull < 0)
  popped h := by
    cases h
    exact ⟨‹_›, ‹_›⟩
  empty h := by
    cases h with
    | refused hr =>
      cases hr with
      | popTooLarge => exact (by decide : ringbufPopSizeTooLarge < 0)
      | empty => exact (by decide : ringbufEmpty < 0)

theorem spsc_serves {producer consumer : Tid} (hproducer : m₀.localTail producer = 0)
    (hconsumer : m₀.localHead consumer = 0) :
    Serves (Spsc.sys r producer consumer) (getBuf r .noSlot m₀) (spsc r.objSize) (2 ^ 63) r.cap
      Spsc.Effect (Spsc.Returns 0) fun tr => ((Spsc.queueOps r.objSize).lin [] tr).acts :=
  .of_queueOps (spsc_tells _) fun h _ =>
    (Spsc.start_getBuf hproducer hconsumer).linearized h

/-- **Spsc**, with one producer and one consumer. -/
theorem spsc_sound {producer consumer : Tid} {tr : List (TestEv Tid (Spsc.Call r.objSize) Spsc.Out)}
    {cf : TestConfig (Op SizeT) Op.Res Empty Tid (Spsc.Call r.objSize) Spsc.Out (Mem SizeT Tid)}
    (hproducer : m₀.localTail producer = 0) (hconsumer : m₀.localHead consumer = 0)
    (h : Run (sys (spsc r.objSize) cs (Spsc.sys r producer consumer)
        fun _ t j => t = if j.consumes then consumer else producer)
      (.start (.start (getBuf r .noSlot m₀) fun _ => 0)) tr cf)
    (hn : toNat cs.n + 1 < 2 ^ 63) (hcr : toNat cs.n + (created tr).length ≤ 2 ^ 64) :
    Sound (spsc r.objSize) cs tr cf ∧ MayCall (Spsc.sys r producer consumer) cf := by
  refine ⟨sound (spsc_serves hproducer hconsumer) hn h hcr, fun {t id j a k} ht => ?_⟩
  obtain ⟨R, hthread, -, hcall, l, hR, -, -⟩ := about_to_call h
    (caller_inductive (fun t (j : Job) => t = if j.consumes then consumer else producer)
      fun {_ _ _} ha => ha) ht
  have ht' := hthread t _ hR
  rcases hcall with ⟨o, bs, rfl, rfl⟩ | ⟨rfl, rfl⟩
  · exact ht'
  · exact ht'

theorem spsc_push_one {args : List Byte} (h : args.length ≤ sizeofObj) :
    ∃ ops m, Alone (Spsc.sys objRing true false) true (Spsc.body objRing (.push args))
      (getBuf objRing .noSlot .zero) ops (.code 0 []) m ∧ m.head = 1 ∧ m.tail = 0 := by
  obtain ⟨lt, -, hpush⟩ := Spsc.run_push (r := objRing) (m := getBuf objRing .noSlot .zero)
    (t := true) h fun hfull => absurd hfull (by decide)
  have halone : Alone (Spsc.sys objRing true false) true (Spsc.body objRing (.push args))
      (getBuf objRing .noSlot .zero) _ _ _ := .ofFun _ _ _
  rw [Spsc.body, Prog.run_bind, hpush, if_neg (by decide)] at halone
  exact ⟨_, _, halone, rfl, rfl⟩

theorem spsc_pop_one {m : Mem SizeT Bool} (hhead : m.head = 1) (htail : m.tail = 0) :
    ∃ ops bs m', Alone (Spsc.sys objRing true false) false (Spsc.body objRing (.pop sizeofObj)) m
      ops (.code 0 bs) m' := by
  have hne : m.head ≠ m.tail := by
    rw [hhead, htail]
    decide
  obtain ⟨lh, -, hpop⟩ := Spsc.run_pop (r := objRing) (m := m) (t := false)
    (show sizeofObj ≤ objRing.objSize from Nat.le_refl _) fun hempty => absurd hempty hne
  have halone :
      Alone (Spsc.sys objRing true false) false (Spsc.body objRing (.pop sizeofObj)) m _ _ _ :=
    .ofFun _ _ _
  rw [Spsc.body, Prog.run_bind, hpop, if_neg hne, htail] at halone
  exact ⟨_, _, _, halone⟩

theorem spsc_sound_one : ∃ tr cf, .ret false 1 .consumer () ∈ tr ∧ (∀ t, cf.thread t = .idle) ∧
    Sound (spsc objRing.objSize) oneNumber tr cf ∧ MayCall (Spsc.sys objRing true false) cf := by
  obtain ⟨ops, m, hpush, hhead, htail⟩ :=
    spsc_push_one (Nat.le_of_eq (length_toBytes (fillObj (fun _ => 0) text 0)))
  obtain ⟨ops', bs, m', hpop⟩ := spsc_pop_one hhead htail
  obtain ⟨tr, cf, h, hcr, hret, hidle⟩ := run_one (K := spsc objRing.objSize)
    (fun _ t j => t = if j.consumes then false else true) rfl rfl rfl rfl hpush (Int.le_refl 0) hpop
    (Int.le_refl 0)
  exact ⟨tr, cf, hret, hidle, spsc_sound rfl rfl h (by decide) (by rw [hcr]; decide)⟩

/-! ## Block -/

def block : Kind Block.Call RingBuf.Ret := ⟨.push, .pop, Ret.rc, Ret.buf⟩

theorem block_tells (n : Nat) : block.Tells (2 ^ 63) Block.Effect (Block.Returns n) where
  push_inj h := Block.Call.push.inj h
  apart h := by cases h
  push_fits h := by
    cases h
    exact ⟨_, rfl⟩
  pop_fits h := by
    cases h
    exact ⟨_, _, rfl⟩
  pushed hk h := by
    cases h
    exact toSsize_word_nonneg hk
  refused h := by
    cases h
    exact (by decide : ringbufPushSizeTooLarge < 0)
  popped h := by
    cases h
    exact ⟨‹_›, ‹_›⟩
  empty h := by
    cases h
    exact (by decide : ringbufPopSizeTooLarge < 0)

theorem block_serves {m₀ : Block.BMem Tid} : Serves (Block.sys r Tid) (Block.getBlockBuf m₀) block
    (2 ^ 63) r.cap Block.Effect (Block.Returns r.objSize)
      fun tr => (Block.queueOps.lin [] tr).acts :=
  .of_queueOps (block_tells _) fun h _ => Block.linearized h

/-- **Block**, with any number of producers and consumers, as long as neither `main` has deleted
the ring. -/
theorem block_sound {m₀ : Block.BMem Tid} {tr : List (TestEv Tid Block.Call RingBuf.Ret)}
    {cf : TestConfig Block.Op Block.Op.Res Block.Call Tid Block.Call RingBuf.Ret (Block.BMem Tid)}
    (h : Run (sys block cs (Block.sys r Tid) fun _ _ _ => True)
      (.start (.start (Block.getBlockBuf m₀) fun _ => 0)) tr cf)
    (hn : toNat cs.n + 1 < 2 ^ 63) (hcr : toNat cs.n + (created tr).length ≤ 2 ^ 64) :
    Sound block cs tr cf ∧ MayCall (Block.sys r Tid) cf :=
  ⟨sound block_serves hn h hcr, fun _ => trivial⟩

theorem block_push_one {args : List Byte} (h : args.length ≤ sizeofObj) :
    ∃ ops m, Alone (Block.sys objRing Bool) true ((Block.sys objRing Bool).body (block.push args))
      (Block.getBlockBuf .zero) ops ⟨0, []⟩ m ∧ m.mtx = .new ∧ m.head = 1 ∧ m.tail = 0 :=
  ⟨_, _, Block.alone_push h rfl (show ¬ (0 - 0 : SizeT) ≥ 2 by decide), rfl, rfl, rfl⟩

theorem block_pop_one {m : Block.BMem Bool} (hmtx : m.mtx = .new) (hhead : m.head = 1)
    (htail : m.tail = 0) :
    ∃ ops v m',
      Alone (Block.sys objRing Bool) false (Block.body objRing (.pop sizeofObj)) m ops v m' ∧
      v.rc = 0 := by
  have hne : m.head ≠ m.tail := by
    rw [hhead, htail]
    decide
  have hsize : sizeofObj ≤ objRing.objSize := Nat.le_refl _
  refine ⟨_, _, _, Block.alone_pop hsize hmtx hne, ?_⟩
  show toSsize m.tail = 0
  rw [htail]
  decide

theorem block_sound_one : ∃ tr cf, .ret false 1 .consumer () ∈ tr ∧ (∀ t, cf.thread t = .idle) ∧
    Sound block oneNumber tr cf ∧ MayCall (Block.sys objRing Bool) cf := by
  obtain ⟨ops, m, hpush, hmtx, hhead, htail⟩ :=
    block_push_one (Nat.le_of_eq (length_toBytes (fillObj (fun _ => 0) text 0)))
  obtain ⟨ops', v, m', hpop, hv⟩ := block_pop_one hmtx hhead htail
  obtain ⟨tr, cf, h, hcr, hret, hidle⟩ := run_one (K := block) (fun _ _ _ => True) trivial trivial
    trivial trivial hpush (Int.le_refl 0) hpop (Int.le_of_eq hv.symm)
  exact ⟨tr, cf, hret, hidle, block_sound h (by decide) (by rw [hcr]; decide)⟩

end Harness

end RingBuf
