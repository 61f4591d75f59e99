import RingBuf.Block.Fifo
import RingBuf.Wrapper.PopWCb

/-!
# What the wrapper of a blocking ring delivers

`Pop_w_cb` on a blocking ring keeps the position that `Pop_BlockRingBuf` returns in an `int` and
takes a negative one for an error. The element has been removed by then. A call therefore delivers
its element exactly when the low half of its position is not negative as an `int`
(`delivers_iff`), and the first element that is lost is number `2 ^ 31` (`lost`).
-/

namespace RingBuf

open Conc Word LawfulWord

namespace Wrapper

/-! ## Positions in an `int` -/

theorem toInt_toSsize_neg (p : SizeT) : toInt (toSsize p) < 0 ↔ ¬ toNat p % 2 ^ 32 < 2 ^ 31 := by
  have hset : BitVec.ofInt 32 p.toInt = p.setWidth 32 :=
    BitVec.signExtend_eq_setWidth_of_le p (by decide)
  have hnat : (p.setWidth 32).toNat = p.toNat % 2 ^ 32 := BitVec.toNat_setWidth ..
  show (BitVec.ofInt 32 p.toInt).toInt < 0 ↔ ¬ p.toNat % 2 ^ 32 < 2 ^ 31
  rw [hset, ← hnat, BitVec.toInt_eq_toNat_cond]
  split
  case isTrue h => omega
  case isFalse h =>
    have := (p.setWidth 32).isLt
    omega

/-! ## The history -/

variable {Tid : Type} {n : Nat}

/-- An event of the wrapper of a blocking ring. -/
abbrev Ev (Tid : Type) (n : Nat) := Event Block.Op Block.Op.Res Tid (Call n) Out

/-- The calls that have advanced `tail_`, in their order, with the `tail_` each of them found. -/
abbrev popClaims (tr : List (Ev Tid n)) : List (Claim Tid (Call n) SizeT) :=
  claims Block.putTail tr

/-- The elements pushed. -/
def queue (tr : List (Ev Tid n)) : List Elem :=
  (claims Block.putHead tr).map (·.call.inner.elem)

/-- What a call of `Pop_w_cb` should return: if it removed an element, the callback's answer on a
copy of it, after one invocation; and without an invocation it removed none. -/
structure Delivers (tr : List (Ev Tid n)) (id : Nat) (callback : Callback n) (out : Out) :
    Prop where
  taken : ∀ (k : Nat) (c : Claim Tid (Call n) SizeT), (popClaims tr)[k]? = some c → c.id = id →
    ∃ e bs, (queue tr)[k]? = some e ∧ bs.length = n ∧ Agree bs e ∧ out.calls = [bs] ∧
      out.rc = onCopy callback bs
  untaken : out.calls = [] → ∀ c ∈ popClaims tr, c.id ≠ id

variable {r : Ring SizeT} {tr tr₁ tr₂ : List (Ev Tid n)} {tr' : List (Block.Ev Tid)} {t : Tid}
  {id : Nat} {callback : Callback n} {fast : Bool} {out : Out}

theorem popClaims_unwrap (h : List.Forall₂ (Wraps Call.inner Call.post) tr tr') :
    Block.popClaims tr' = (popClaims tr).map (Claim.unwrap Call.inner) := claims_unwrap h

theorem queue_unwrap (h : List.Forall₂ (Wraps Call.inner Call.post) tr tr') :
    Block.queue tr' = queue tr := by
  rw [Block.queue, Block.pushClaims, claims_unwrap h, List.map_map]
  rfl

/-- The two paths do the same with what `Pop_BlockRingBuf` returns. -/
theorem post_popWCb (callback : Callback n) (fast : Bool) (v : Ret) :
    Call.post (.popWCb callback fast) v =
      if toInt v.rc < 0 then ⟨toInt v.rc, []⟩ else ⟨onCopy callback v.buf, [v.buf]⟩ := by
  cases fast <;> rfl

theorem pop_out [DecidableEq Tid] {m₀ : Block.BMem Tid}
    {cf : Config Block.Op Block.Op.Res (Call n × Block.Call) Tid (Call n) Out (Block.BMem Tid)}
    (h : Run (blockSys r n Tid) (.start (Block.getBlockBuf m₀))
      (tr₁ ++ .ret t id (.popWCb callback fast) out :: tr₂) cf) :
    ∃ tr' v, List.Forall₂ (Wraps Call.inner Call.post) tr₁ tr' ∧
      ((Block.popClaims tr').map Claim.id).Nodup ∧ Block.Out r tr' t id (.pop n) v ∧
      out = Call.post (.popWCb callback fast) v := by
  obtain ⟨tr', v, d, hrun, htr, hout⟩ := Run.unwrap_ret h
  obtain ⟨-, m, R, l, -, hi, ht, hfin⟩ :=
    Inductive.before_ret (Block.follows r Tid) (Block.inv_inductive m₀) hrun
  exact ⟨tr', v, htr, hi.known.pop.nodup, hi.ret ht hfin, hout⟩

/-- **`Pop_w_cb` delivers** exactly if the `tail_` that it found, if it removed an element, is not
negative as an `int`. -/
theorem delivers_iff [DecidableEq Tid] {m₀ : Block.BMem Tid}
    {cf : Config Block.Op Block.Op.Res (Call n × Block.Call) Tid (Call n) Out (Block.BMem Tid)}
    (h : Run (blockSys r n Tid) (.start (Block.getBlockBuf m₀))
      (tr₁ ++ .ret t id (.popWCb callback fast) out :: tr₂) cf) :
    Delivers tr₁ id callback out ↔
      ∀ c ∈ popClaims tr₁, c.id = id → toNat c.pos % 2 ^ 32 < 2 ^ 31 := by
  obtain ⟨tr', v, htr, hnodup, hv, rfl⟩ := pop_out h
  have hclaims := popClaims_unwrap htr
  have hids : ((popClaims tr₁).map Claim.id).Nodup := by
    rw [hclaims, List.map_map] at hnodup
    exact hnodup
  rw [post_popWCb]
  cases hv with
  | tooLarge hsize hpush hpop =>
    have hnone : ∀ c ∈ popClaims tr₁, c.id ≠ id := by
      intro c hc
      exact hpop _ (hclaims ▸ List.mem_map_of_mem hc)
    refine ⟨fun _ c hc hid => absurd hid (hnone c hc),
      fun _ => ⟨fun k c hk hid => ?_, fun _ => hnone⟩⟩
    exact absurd hid (hnone c (List.mem_of_getElem? hk))
  | @popped size k p bs e hk he hlen hagree =>
    rw [hclaims, List.getElem?_map] at hk
    obtain ⟨c, hc, hcp⟩ := Option.map_eq_some_iff.1 hk
    rw [queue_unwrap htr] at he
    have hid : c.id = id := congrArg Claim.id hcp
    have hpos : c.pos = p := congrArg Claim.pos hcp
    -- The call has removed this element only.
    have honly : ∀ (k' : Nat) (c' : Claim Tid (Call n) SizeT), (popClaims tr₁)[k']? = some c' →
        c'.id = id → k' = k := by
      intro k' c' hk' hid'
      have h₁ : ((popClaims tr₁).map Claim.id)[k']? = some id := by
        rw [List.getElem?_map, hk', Option.map_some, hid']
      have h₂ : ((popClaims tr₁).map Claim.id)[k]? = some id := by
        rw [List.getElem?_map, hc, Option.map_some, hid]
      exact (List.getElem?_inj (List.getElem?_eq_some_iff.1 h₁).1 hids).1 (h₁.trans h₂.symm)
    constructor
    · intro hd c' hc' hid'
      obtain ⟨k', hk'⟩ := List.getElem?_of_mem hc'
      obtain rfl := honly k' c' hk' hid'
      obtain rfl := Option.some.inj (hk'.symm.trans hc)
      obtain ⟨e', bs', -, -, -, hcalls, -⟩ := hd.taken k' c' hc hid
      rw [hpos]
      by_contra hneg
      rw [if_pos ((toInt_toSsize_neg p).2 hneg)] at hcalls
      cases hcalls
    · intro hlt
      have hpos' := hlt c (List.mem_of_getElem? hc) hid
      rw [hpos] at hpos'
      rw [if_neg fun hneg => (toInt_toSsize_neg p).1 hneg hpos']
      refine ⟨fun k' c' hk' hid' => ?_, nofun⟩
      obtain rfl := honly k' c' hk' hid'
      exact ⟨e, bs, he, hlen, hagree, rfl, rfl⟩

/-! ## Rounds of a push and a pop -/

/-- A callback on objects of one byte. -/
def byteCallback : Callback 1 := ⟨0, .op 0 fun b => .ret b.toNat⟩

/-- The history of a push and a pop by thread `true`, up to the return of the pop. -/
def round (m : Block.BMem Bool) (k : Nat) : List (Ev Bool 1) :=
  .call true k (.push [7]) :: (opEvents true k (.push [7]) (Block.pushOps tinyRing [7] m) ++
    [.ret true k (.push [7]) ⟨toSsize m.head, []⟩]) ++
  .call true (k + 1) (.popWCb byteCallback true) :: opEvents true (k + 1)
    (.popWCb byteCallback true) (Block.popOps tinyRing 1 (Block.pushState tinyRing [7] m))

/-- What the pop returns. -/
def roundOut (m : Block.BMem Bool) : Out :=
  Call.post (.popWCb byteCallback true)
    ⟨toSsize m.tail, Block.tailBytes tinyRing 1 (Block.pushState tinyRing [7] m)⟩

/-- The ring after it. -/
def roundState (m : Block.BMem Bool) : Block.BMem Bool :=
  { Block.pushState tinyRing [7] m with tail := m.tail + 1 }

theorem run_round {m : Block.BMem Bool} (hempty : m.head = m.tail) (hm : m.mtx = .new) (k : Nat) :
    Run (blockSys tinyRing 1 Bool) ⟨m, fun _ => .idle, k⟩
      (round m k ++ [.ret true (k + 1) (.popWCb byteCallback true) (roundOut m)])
      ⟨roundState m, fun _ => .idle, k + 2⟩ := by
  have hroom : ¬ m.head - m.tail ≥ tinyRing.objNum := by
    rw [hempty, BitVec.sub_self]
    decide
  have hsome : (Block.pushState tinyRing [7] m).head ≠ (Block.pushState tinyRing [7] m).tail := by
    show m.head + 1 ≠ m.tail
    rw [hempty]
    exact Spsc.add_one_ne _
  have hpush : Alone (blockSys tinyRing 1 Bool) true ((blockSys tinyRing 1 Bool).body (.push [7])) m
      (Block.pushOps tinyRing [7] m) ⟨toSsize m.head, []⟩ (Block.pushState tinyRing [7] m) :=
    Alone.wrap (w := Call.push [7])
      (Block.alone_push (show [(7 : Byte)].length ≤ tinyRing.objSize by decide) hm hroom)
  have hpop : Alone (blockSys tinyRing 1 Bool) true
      ((blockSys tinyRing 1 Bool).body (.popWCb byteCallback true)) (Block.pushState tinyRing [7] m)
      (Block.popOps tinyRing 1 (Block.pushState tinyRing [7] m)) (roundOut m) (roundState m) :=
    Alone.wrap (w := Call.popWCb byteCallback true)
      (Block.alone_pop (m := Block.pushState tinyRing [7] m) (show 1 ≤ tinyRing.objSize by decide)
        hm hsome)
  have h := (Run.alone (c := ⟨m, fun _ => .idle, k⟩) rfl trivial hpush).trans
    (Run.alone rfl trivial hpop)
  simpa [round] using h

/-- A round removes one element, from the tail it finds. -/
theorem popClaims_round (m : Block.BMem Bool) (k : Nat) :
    popClaims (round m k) = [⟨true, k + 1, .popWCb byteCallback true, m.tail⟩] := by
  have h : popClaims (round m k) = [⟨true, k + 1, .popWCb byteCallback true, m.tail + 1 - 1⟩] := rfl
  rw [h, BitVec.add_sub_cancel]

theorem run_rounds (k : Nat) :
    ∃ tr m, Run (blockSys tinyRing 1 Bool) (.start (Block.getBlockBuf .zero)) tr
        ⟨m, fun _ => .idle, 2 * k⟩ ∧
      m.head = word k ∧ m.tail = word k ∧ m.mtx = .new ∧ (popClaims tr).length = k := by
  induction k with
  | zero => exact ⟨[], _, .refl, rfl, rfl, rfl, rfl⟩
  | succ k ih =>
    obtain ⟨tr, m, hrun, hhead, htail, hm, hlen⟩ := ih
    refine ⟨_, _, hrun.trans (run_round (hhead.trans htail.symm) hm (2 * k)), ?_, ?_, hm, ?_⟩
    · show m.head + 1 = _
      rw [hhead, word_succ]
    · show m.tail + 1 = _
      rw [htail, word_succ]
    · rw [popClaims, claims_append, claims_snoc_ret, List.length_append,
        show claims Block.putTail (round m (2 * k)) = _ from popClaims_round m (2 * k)]
      rw [show (claims Block.putTail tr).length = k from hlen]
      rfl

/-- The first round delivers its element. -/
theorem delivers_iff_first :
    Delivers (round (Block.getBlockBuf .zero) 0) 1 byteCallback
      (roundOut (Block.getBlockBuf .zero)) :=
  (delivers_iff (t := true) (run_round (m := Block.getBlockBuf .zero) rfl rfl 0)).2 fun c hc _ => by
    rw [popClaims_round] at hc
    obtain rfl := List.mem_singleton.1 hc
    decide

/-- After `2 ^ 31` rounds the next pop removes its element and does not invoke the callback. -/
theorem lost :
    ∃ tr k out cf, Run (blockSys tinyRing 1 Bool) (.start (Block.getBlockBuf .zero))
        (tr ++ [.ret true k (.popWCb byteCallback true) out]) cf ∧
      (popClaims tr).length = 2 ^ 31 + 1 ∧ out.calls = [] ∧ (∃ c ∈ popClaims tr, c.id = k) ∧
      ¬ Delivers tr k byteCallback out := by
  obtain ⟨tr, m, hrun, hhead, htail, hm, hlen⟩ := run_rounds (2 ^ 31)
  have h := hrun.trans (run_round (hhead.trans htail.symm) hm (2 * 2 ^ 31))
  rw [← List.append_assoc] at h
  have hneg : toInt (toSsize m.tail) < 0 := by
    rw [htail, toInt_toSsize_neg]
    decide
  have hcalls : (roundOut m).calls = [] := by
    rw [roundOut, post_popWCb, if_pos hneg]
  have hclaims : popClaims (tr ++ round m (2 * 2 ^ 31)) = popClaims tr ++
      [⟨true, 2 * 2 ^ 31 + 1, .popWCb byteCallback true, m.tail⟩] := by
    rw [popClaims, claims_append]
    exact congrArg _ (popClaims_round m _)
  have htaken : ∃ c ∈ popClaims (tr ++ round m (2 * 2 ^ 31)), c.id = 2 * 2 ^ 31 + 1 := by
    rw [hclaims]
    exact ⟨_, List.mem_append_right _ (List.mem_singleton_self _), rfl⟩
  refine ⟨_, _, _, _, h, ?_, hcalls, htaken, fun hd => ?_⟩
  · rw [hclaims, List.length_append, hlen]
    rfl
  · obtain ⟨c, hc, hid⟩ := htaken
    exact hd.untaken hcalls c hc hid

end Wrapper

end RingBuf
