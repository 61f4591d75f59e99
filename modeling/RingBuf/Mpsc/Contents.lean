import RingBuf.Contents
import RingBuf.Mpsc.Invariant

/-!
# What the Mpsc slots hold

The second layer over the slot invariant: a marked slot between the tail and the head holds the
bytes of the push that claimed its position, which has stored `SLOT_VALID` (`Pushed`), and the
bytes a pop has copied so far agree with them.
-/

namespace RingBuf

open Conc Word LawfulWord

namespace Mpsc

variable {Tid : Type} {r : Ring SizeT} {tr tr' : List (Ev Tid r.objSize)} {m m' : Mem SizeT Tid}
  {R : MRoles Tid r.objSize}

/-- The push that claimed position `k` was given `args`, and it has stored `SLOT_VALID`. -/
def Pushed (r : Ring SizeT) (tr : List (Ev Tid r.objSize)) (k : Nat) (args : List Byte) : Prop :=
  ∃ t id h, ⟨t, id, .push args, h⟩ ∈ pushClaims tr ∧ toNat h = k ∧
    .op t id (.push args) (.storeSlot (h &&& r.mask) slotValid) () ∈ tr

theorem Pushed.append {k : Nat} {args : List Byte} (h : Pushed r tr k args)
    (tr' : List (Ev Tid r.objSize)) : Pushed r (tr ++ tr') k args := by
  obtain ⟨t, id, h', hc, hk, hs⟩ := h
  exact ⟨t, id, h', mem_claims_append hc tr', hk, List.mem_append_left _ hs⟩

theorem Pushed.args_eq {k n : Nat} {args args' : List Byte} (hn : Numbered toNat (pushClaims tr) n)
    (h : Pushed r tr k args) (h' : Pushed r tr k args') : args = args' := by
  obtain ⟨t, id, p, hc, hk, -⟩ := h
  obtain ⟨t', id', p', hc', hk', -⟩ := h'
  have := hn.eq hc hc' (hk.trans hk'.symm)
  simp only [Claim.mk.injEq, Call.push.injEq] at this
  exact this.2.2.1

/-- A marked slot of the window holds the element of its position. -/
def view (r : Ring SizeT) (Tid : Type) :
    View (Mem SizeT Tid) (Ev Tid r.objSize) (Role r.objSize) where
  buffer := Mem.buffer
  fill
    | .filling args h j => some (toNat h, .ofList (args.take j))
    | _ => none
  bytes
    | .draining _ d bs | .cleared _ d bs | .popped _ d bs => some (toNat d, bs)
    | _ => none
  full m k := toNat m.tail ≤ k ∧ k < toNat m.head ∧ m.slot (r.index k) = slotValid
  pushed tr k e := ∃ args, Pushed r tr k args ∧ e = .ofList args
  pushed_append := by
    rintro tr k e ⟨args, hp, he⟩ tr'
    exact ⟨args, hp.append tr', he⟩

/-- What stands in the slots, and what pops have read there. -/
abbrev SlotContents (r : Ring SizeT) (tr : List (Ev Tid r.objSize)) (m : Mem SizeT Tid)
    (R : MRoles Tid r.objSize) : Prop :=
  Contents (view r Tid) r tr m R

theorem full_of_drain (hs : SlotInv r tr m R) {t : Tid} {d : Nat}
    (ht : (marks m R).drain t = some d) : (view r Tid).full m d := by
  obtain ⟨hd, hlt, hv⟩ := hs.inv.drain t d ht
  exact ⟨hd.ge, hlt, of_decide_eq_true hv⟩

/-- A marked slot is not one that is being written. -/
theorem index_ne_of_full (hs : SlotInv r tr m R) {t : Tid} {p k : Nat}
    (ht : (marks m R).fill t = some p) (hk : (view r Tid).full m k) : r.index k ≠ r.index p := by
  intro hi
  have hp : decide (m.slot (r.index p) = slotValid) = false := (hs.inv.fill t p ht).2.2
  exact of_decide_eq_false hp (hi ▸ hk.2.2)

/-- What a role writes is a claim of the slot discipline. -/
theorem fill_of_view {t : Tid} {a : Active (Call r.objSize) (Role r.objSize)} {p : Nat}
    {e : Elem} (ht : R t = some a) (he : (view r Tid).fill a.role = some (p, e)) :
    (marks m R).fill t = some p := by
  obtain ⟨id, c, l⟩ := a
  cases l with
  | filling args h j =>
    obtain ⟨rfl, -⟩ := Prod.mk.inj (Option.some.inj he)
    exact fill_of_filling ht
  | _ => cases he

variable [DecidableEq Tid]

theorem contents_claimHead {e : Ev Tid r.objSize} {t : Tid} {id : Nat} {c : Call r.objSize}
    {args : List Byte} {h : SizeT} (hc : SlotContents r tr m R) (hs : SlotInv r tr m R)
    (hlt : toNat m.head < toNat m.tail + r.cap) (hadd : toNat (h + 1) = toNat m.head + 1) :
    SlotContents r (tr ++ [e]) { m with head := h + 1 }
      (Function.update R t (some ⟨id, c, .filling args h 0⟩)) := by
  refine hc.start_fill (congrArg (fun e => some (_, e)) Elem.ofList_nil) rfl rfl fun k hk => ?_
  obtain ⟨hle, hlt', hv⟩ := hk
  refine ⟨hle, ?_, hv⟩
  have hlt'' : k < toNat m.head + 1 := hadd ▸ hlt'
  by_contra hge
  obtain rfl : k = toNat m.head := by omega
  have hfree : decide (m.slot (r.index (toNat m.head)) = slotValid) = false :=
    hs.inv.free _ le_rfl hlt
  exact of_decide_eq_false hfree hv

theorem contents_copyIn {e : Ev Tid r.objSize} {t : Tid} {id : Nat} {c : Call r.objSize}
    {args : List Byte} {p : SizeT} {j : Nat} {b : Byte} (h : SlotContents r tr m R)
    (hk : Known tr R) (hs : SlotInv r tr m R) (ht : R t = some ⟨id, c, .filling args p j⟩)
    (hb : args[j]? = some b) :
    SlotContents r (tr ++ [e])
      { m with buffer := Function.update m.buffer (r.addr (p &&& r.mask) + j) b }
      (Function.update R t (some ⟨id, c, .filling args p (j + 1)⟩)) := by
  have hfill : (marks m R).fill t = some (toNat p) := fill_of_filling ht
  have hj : j < r.objSize :=
    Nat.lt_of_lt_of_le (List.getElem?_eq_some_iff.1 hb).1 (hk.role t _ ht).2
  refine h.write ht rfl ?_ rfl hj (by rw [r.addr_and_mask]; rfl)
    (fun k hfull => ⟨hfull, index_ne_of_full hs hfill hfull⟩) (fun u b q e hne hu he hi => ?_)
  · exact congrArg (fun e => some (toNat p, e)) (Elem.ofList_take_succ hb)
  · exact hne (hs.inv.fill_fill (fill_of_view hu he) hfill hi).1

theorem contents_publish {t : Tid} {id : Nat} {c : Call r.objSize} {args : List Byte} {p : SizeT}
    (h : SlotContents r tr m R) (hk : Known tr R) (hs : SlotInv r tr m R)
    (ht : R t = some ⟨id, c, .filling args p args.length⟩) :
    SlotContents r (tr ++ [.op t id c (.storeSlot (p &&& r.mask) slotValid) ()])
      { m with slot := Function.update m.slot (toNat (p &&& r.mask)) slotValid }
      (Function.update R t (some ⟨id, c, .pushed p⟩)) := by
  rw [r.toNat_and_mask]
  refine h.publish ht rfl rfl rfl rfl ?_ fun k hfull => ?_
  · obtain ⟨rfl, -⟩ := hk.role t _ ht
    refine ⟨args, ⟨t, id, p, ?_, rfl, by simp⟩, by rw [List.take_length]⟩
    exact mem_claims_append (hk.push.own t _ p ht rfl) _
  · obtain ⟨hle, hlt, hv⟩ := hfull
    have hle' : toNat m.tail ≤ k := hle
    have hlt' : k < toNat m.head := hlt
    by_cases hi : r.index k = r.index (toNat p)
    · have hp₁ : toNat m.tail ≤ toNat p := (hs.inv.fill t _ (fill_of_filling ht)).1
      have hp₂ : toNat p < toNat m.head := (hs.inv.fill t _ (fill_of_filling ht)).2.1
      have hhead : toNat m.head ≤ toNat m.tail + r.cap := hs.inv.head_le
      exact .inl (eq_of_mod_eq hi (by omega) (by omega))
    · simp only [Function.update_of_ne hi] at hv
      exact .inr ⟨hle', hlt', hv⟩

theorem contents_op {t : Tid} {id : Nat} {c : Call r.objSize} {l l' : Role r.objSize}
    {o : Op SizeT} {x : o.Res} (hb : Bounded tr) (hk : Known tr R) (hs : SlotInv r tr m R)
    (hs' : SlotInv r (tr ++ [.op t id c o x]) m' (Function.update R t (some ⟨id, c, l'⟩)))
    (h : SlotContents r tr m R) (ht : R t = some ⟨id, c, l⟩) (hm : Trans r l o x l')
    (he : exec t o m = (x, m')) :
    SlotContents r (tr ++ [.op t id c o x]) m' (Function.update R t (some ⟨id, c, l'⟩)) := by
  cases hm with
  | @claimHead args p d hfull =>
    obtain ⟨hh, rfl⟩ := exec_casHead he
    have hadd : toNat (p + 1) = toNat m.head + 1 := by rw [hs.toNat_succ hb (hh ▸ le_rfl), hh]
    have hle : toNat (p + 1) ≤ toNat m.tail + r.cap := hs'.inv.head_le
    exact contents_claimHead h hs (by omega) hadd
  | missHead =>
    obtain rfl := exec_casHead_false he
    exact h.keep ht rfl (fun _ hk => hk) (.inl rfl) (.inl rfl)
  | copyIn hb =>
    obtain ⟨-, rfl⟩ := Prod.mk.inj he
    exact contents_copyIn h hk hs ht hb
  | publish =>
    obtain ⟨-, rfl⟩ := Prod.mk.inj he
    exact contents_publish h hk hs ht
  | @accept c' d st hst =>
    obtain ⟨-, rfl⟩ := Prod.mk.inj he
    have hd : (view r Tid).full m (toNat d) :=
      full_of_drain hs' (drain_of_draining (Function.update_self ..))
    exact h.start_read rfl rfl rfl (fun _ hk => hk) hd
  | @copyOut others size d bs b hlt hsize =>
    obtain ⟨rfl, rfl⟩ := Prod.mk.inj he
    rw [r.addr_and_mask]
    refine h.read_byte ht rfl rfl rfl (by omega) (full_of_drain hs (drain_of_draining ht)) ?_
    rintro e e' ⟨args, hp, rfl⟩ ⟨args', hp', rfl⟩
    rw [hp.args_eq hs.head hp']
  | @clear c' d bs _ =>
    obtain ⟨-, rfl⟩ := Prod.mk.inj he
    refine h.keep ht rfl (fun k hfull => ?_) (.inl rfl) (.inr rfl)
    obtain ⟨hle, hlt, hv⟩ := hfull
    refine ⟨hle, hlt, ?_⟩
    by_cases hi : r.index k = toNat (d &&& r.mask)
    · simp only [hi, Function.update_self] at hv
      cases hv
    · simpa only [Function.update_of_ne hi] using hv
  | @advance c' d bs =>
    obtain ⟨-, rfl⟩ := Prod.mk.inj he
    refine h.keep ht rfl (fun k hfull => ?_) (.inl rfl) (.inr rfl)
    obtain ⟨hle, hlt, hv⟩ := hfull
    have hd : toNat d = toNat m.tail := (hs.inv.cleared t _ (cleared_of_cleared ht)).1
    have htail : toNat m.tail ≤ toNat m.head := hs.inv.tail_le
    have hadd : toNat (d + 1) = toNat d + 1 := hs.toNat_succ hb (by omega)
    exact ⟨by simp only [hadd] at hle; omega, hlt, hv⟩
  | _ =>
    obtain ⟨-, rfl⟩ := Prod.mk.inj he
    exact h.keep ht rfl (fun _ hk => hk) (.inr rfl) (.inr rfl)

/-! ## Runs -/

/-- Everything known of a state reached by fewer than `2 ^ 63` pushes. -/
structure Inv (r : Ring SizeT) (tr : List (Ev Tid r.objSize)) (m : Mem SizeT Tid)
    (R : MRoles Tid r.objSize) : Prop where
  known : Known tr R
  slots : SlotInv r tr m R
  contents : SlotContents r tr m R

omit [DecidableEq Tid] in
theorem Fresh.contents {m₀ : Mem SizeT Tid} (hf : Fresh r m₀) :
    SlotContents r [] m₀ fun _ => none := by
  refine ⟨by simp, fun k hfull => ?_, by simp⟩
  have hv := hfull.2.2
  rw [hf.slot _ (r.index_lt k)] at hv
  cases hv

theorem contents_inductive {m₀ : Mem SizeT Tid} (hf : Fresh r m₀) :
    InductiveUnder (proto r) (sys r Tid) m₀
      (fun tr m R => Known tr R ∧ (Bounded tr → SlotInv r tr m R))
      fun tr m R => Bounded tr → SlotContents r tr m R := by
  refine InductiveUnder.guard (B := Bounded) (fun _ _ h => h.of_append) ?_
  refine ⟨fun _ => hf.contents, fun _ _ h _ _ _ => ?_, fun _ hA h ht hm he hA' => ?_,
    fun _ _ h _ _ _ => ?_, fun _ _ he => he.elim⟩
  · exact h.same rfl (fun _ hk => hk) (by rintro _ _ _ ⟨⟩ ⟨⟩) (by rintro _ _ _ ⟨⟩ ⟨⟩)
  · obtain ⟨hb, hk, hs⟩ := hA
    obtain ⟨hb', -, hs'⟩ := hA'
    exact contents_op hb hk (hs hb) (hs' hb') h ht hm he
  · exact h.same rfl (fun _ hk => hk) (by simp) (by simp)

/-- The layers together. -/
theorem inv_inductive {m₀ : Mem SizeT Tid} (hf : Fresh r m₀) :
    Inductive (proto r) (sys r Tid) m₀ fun tr m R =>
      (Known tr R ∧ (Bounded tr → SlotInv r tr m R)) ∧ (Bounded tr → SlotContents r tr m R) :=
  InductiveUnder.and (known_inductive.and (slotInv_inductive hf)) (contents_inductive hf)

variable {m₀ : Mem SizeT Tid}
  {c : Config (Op SizeT) Op.Res Empty Tid (Call r.objSize) Ret (Mem SizeT Tid)}

theorem inv_run (hf : Fresh r m₀) (h : Run (sys r Tid) (.start m₀) tr c) (hb : Bounded tr) :
    ∃ R, (∀ t, Follow (proto r) (c.thread t) (R t)) ∧ Inv r tr c.shared R := by
  obtain ⟨R, hF, -, ⟨hk, hs⟩, hc⟩ := (inv_inductive hf).run (follows r Tid) h
  exact ⟨R, hF, hk, hs hb, hc hb⟩

theorem inv_before_op {tr₁ tr₂ : List (Ev Tid r.objSize)} {t : Tid} {id : Nat}
    {a : Call r.objSize} {o : Op SizeT} {x : o.Res} (hf : Fresh r m₀)
    (h : Run (sys r Tid) (.start m₀) (tr₁ ++ .op t id a o x :: tr₂) c)
    (hb : Bounded (tr₁ ++ .op t id a o x :: tr₂)) :
    ∃ m R l l', Inv r tr₁ m R ∧ R t = some ⟨id, a, l⟩ ∧ Trans r l o x l' ∧
      (exec t o m).1 = x := by
  obtain ⟨n, m, m', R, l, l', -, ⟨⟨hk, hs⟩, hc⟩, ht, hm, he⟩ :=
    (inv_inductive hf).before_op (follows r Tid) h
  exact ⟨m, R, l, l', ⟨hk, hs hb.of_append, hc hb.of_append⟩, ht, hm, congrArg Prod.fst he⟩

theorem inv_before_ret {tr₁ tr₂ : List (Ev Tid r.objSize)} {t : Tid} {id : Nat}
    {a : Call r.objSize} {v : Ret} (hf : Fresh r m₀)
    (h : Run (sys r Tid) (.start m₀) (tr₁ ++ .ret t id a v :: tr₂) c)
    (hb : Bounded (tr₁ ++ .ret t id a v :: tr₂)) :
    ∃ m R l, Inv r tr₁ m R ∧ R t = some ⟨id, a, l⟩ ∧ (proto r).final l v := by
  obtain ⟨n, m, R, l, -, ⟨⟨hk, hs⟩, hc⟩, ht, hfin⟩ :=
    (inv_inductive hf).before_ret (follows r Tid) h
  exact ⟨m, R, l, ⟨hk, hs hb.of_append, hc hb.of_append⟩, ht, hfin⟩

end Mpsc

end RingBuf
