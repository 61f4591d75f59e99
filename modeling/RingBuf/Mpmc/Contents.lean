import RingBuf.Contents
import RingBuf.Mpmc.Invariant

/-!
# What the Mpmc slots hold

The second layer over the slot invariant: whose position each claim is, and which bytes stand in
the slots. A call claims at most one position (`Known`); a slot whose number is `k + 1` holds
the bytes of the push that claimed position `k`, which has stored that number (`Pushed`); and
the bytes a pop has copied so far agree with them (`Contents`).
-/

namespace RingBuf

open Conc Word LawfulWord

namespace Mpmc

variable {W Tid : Type} [Word W]

/-! ## The position of a call -/

/-- The position the call has taken from `head_`. -/
def Role.pushPos {n : Nat} : Role W n → Option W
  | .filling _ h _ | .pushed h => some h
  | _ => none

/-- The position the call has taken from `tail_`. -/
def Role.popPos {n : Nat} : Role W n → Option W
  | .draining _ d _ | .popped _ d _ => some d
  | _ => none

/-- The role is one of call `c`. -/
def Role.Of {n : Nat} (c : Call n) : Role W n → Prop
  | .start c' => c' = c
  | .sawHead args _ | .sawPushSeq args _ _ | .filling args _ _ =>
    c = .push args ∧ args.length ≤ n
  | .pushed _ => ∃ args, c = .push args
  | .sawTail c' _ | .sawPopSeq c' _ _ | .draining c' _ _ => c' = c ∧ ∀ args, c ≠ .push args
  | .popped c' _ bs =>
    c' = c ∧ (∀ args, c ≠ .push args) ∧ ∀ size, c = .pop size → bs.length = size
  | .lost => True

variable {r : Ring W} {tr tr' : List (Ev W Tid r.objSize)} {m m' : Mem W Tid}
  {R : MRoles Tid W r.objSize}

theorem Role.of_trans {c : Call r.objSize} {l l' : Role W r.objSize} {o : Op W} {x : o.Res}
    (hm : Trans r l o x l') (h : l.Of c) : l'.Of c := by
  cases hm with
  | loadHead hlen => exact ⟨h.symm, hlen⟩
  | pushSeq => exact h
  | claimHead _ => exact h
  | missHead => trivial
  | copyIn _ => exact h
  | publish => exact ⟨_, h.1⟩
  | loadTail hpop _ => exact ⟨h, fun args hc => hpop args (h.trans hc)⟩
  | popSeq => exact h
  | claimTail _ => exact h
  | missTail => trivial
  | copyOut _ _ => exact h
  | enterCb => exact h
  | readCb _ => exact h
  | release hsize => exact ⟨h.1, h.2, fun size hc => hsize size (h.1.trans hc)⟩

/-- Which claims belong to which call. -/
structure Known (tr : List (Ev W Tid r.objSize)) (R : MRoles Tid W r.objSize) : Prop where
  push : Once takeHead Role.pushPos tr R
  pop : Once takeTail Role.popPos tr R
  role : ∀ t a, R t = some a → a.role.Of a.call

variable [DecidableEq Tid]

theorem known_inductive {m₀ : Mem W Tid} :
    Inductive (proto r) (sys r Tid) m₀ fun tr _ R => Known tr R := by
  have hpush : Inductive (proto r) (sys r Tid) m₀ fun tr _ R => Once takeHead Role.pushPos tr R :=
    once_inductive _ _ (fun _ => rfl)
      (fun hm ho => by cases hm <;> first | rfl | cases ho)
      (fun hm ho => by cases hm <;> cases ho; exact ⟨rfl, rfl⟩)
  have hpop : Inductive (proto r) (sys r Tid) m₀ fun tr _ R => Once takeTail Role.popPos tr R :=
    once_inductive _ _ (fun _ => rfl)
      (fun hm ho => by cases hm <;> first | rfl | cases ho)
      (fun hm ho => by cases hm <;> cases ho; exact ⟨rfl, rfl⟩)
  have hrole : Inductive (proto r) (sys r Tid) m₀ fun _ _ R =>
      ∀ t a, R t = some a → a.role.Of a.call :=
    roles_inductive (fun c l => Role.Of c l) (fun _ => rfl) Role.of_trans
  refine (hpush.both (hpop.both hrole)).congr fun tr s R => ?_
  exact ⟨fun h => ⟨h.1, h.2.1, h.2.2⟩, fun h => ⟨h.push, h.pop, h.role⟩⟩

/-! ## The bytes in the slots -/

omit [DecidableEq Tid] in
/-- The push that claimed position `k` was given `args`, and it has stored its slot word. -/
def Pushed (r : Ring W) (tr : List (Ev W Tid r.objSize)) (k : Nat) (args : List Byte) : Prop :=
  ∃ t id h, ⟨t, id, .push args, h⟩ ∈ pushClaims tr ∧ toNat h = k ∧
    .op t id (.push args) (.storeSlot (h &&& r.mask) (h + 1)) () ∈ tr

omit [DecidableEq Tid] in
theorem Pushed.append {k : Nat} {args : List Byte} (h : Pushed r tr k args)
    (tr' : List (Ev W Tid r.objSize)) : Pushed r (tr ++ tr') k args := by
  obtain ⟨t, id, h', hc, hk, hs⟩ := h
  exact ⟨t, id, h', mem_claims_append hc tr', hk, List.mem_append_left _ hs⟩

omit [DecidableEq Tid] in
theorem Pushed.args_eq {k n : Nat} {args args' : List Byte} (hn : Numbered toNat (pushClaims tr) n)
    (h : Pushed r tr k args) (h' : Pushed r tr k args') : args = args' := by
  obtain ⟨t, id, p, hc, hk, -⟩ := h
  obtain ⟨t', id', p', hc', hk', -⟩ := h'
  have := hn.eq hc hc' (hk.trans hk'.symm)
  simp only [Claim.mk.injEq, Call.push.injEq] at this
  exact this.2.2.1

omit [DecidableEq Tid] in
/-- A slot whose number is `k + 1` holds the element of position `k`. -/
def view (r : Ring W) (Tid : Type) :
    View (Mem W Tid) (Ev W Tid r.objSize) (Role W r.objSize) where
  buffer := Mem.buffer
  fill
    | .filling args h j => some (toNat h, .ofList (args.take j))
    | _ => none
  bytes
    | .draining _ d bs | .popped _ d bs => some (toNat d, bs)
    | _ => none
  full m k := toNat (m.slot (r.index k)) = k + 1
  pushed tr k e := ∃ args, Pushed r tr k args ∧ e = .ofList args
  pushed_append := by
    rintro tr k e ⟨args, hp, he⟩ tr'
    exact ⟨args, hp.append tr', he⟩

/-- What stands in the slots, and what pops have read there. -/
abbrev SlotContents (r : Ring W) (tr : List (Ev W Tid r.objSize)) (m : Mem W Tid)
    (R : MRoles Tid W r.objSize) : Prop :=
  Contents (view r Tid) r tr m R

variable [LawfulWord W]

omit [DecidableEq Tid] [LawfulWord W] in
/-- A slot claimed for reading holds the element of its position. -/
theorem full_of_drain (hs : SlotInv r tr m R) {t : Tid} {d : Nat}
    (ht : (slots m R).drain t = some d) : (view r Tid).full m d :=
  (hs.inv.drain t d ht).2.2

omit [DecidableEq Tid] [LawfulWord W] in
/-- A published slot does not show the number of a position that is being written. -/
theorem index_ne_of_full (hs : SlotInv r tr m R) {t : Tid} {p k : Nat}
    (ht : (slots m R).fill t = some p) (hk : (view r Tid).full m k) : r.index k ≠ r.index p := by
  intro hi
  have hnum : toNat (m.slot (r.index p)) = p := (hs.inv.fill t p ht).2.2
  have hseq : toNat (m.slot (r.index k)) = k + 1 := hk
  rw [hi, hnum] at hseq
  exact succ_mod_ne r.two_le_cap (hseq ▸ hi.symm)

omit [DecidableEq Tid] [LawfulWord W] in
/-- What a role writes is a claim of the slot discipline. -/
theorem fill_of_view {t : Tid} {a : Active (Call r.objSize) (Role W r.objSize)} {p : Nat}
    {e : Elem} (ht : R t = some a) (he : (view r Tid).fill a.role = some (p, e)) :
    (slots m R).fill t = some p := by
  obtain ⟨id, c, l⟩ := a
  cases l with
  | filling args h j =>
    obtain ⟨rfl, -⟩ := Prod.mk.inj (Option.some.inj he)
    exact fill_of_filling ht
  | _ => cases he

theorem contents_copyIn {e : Ev W Tid r.objSize} {t : Tid} {id : Nat} {c : Call r.objSize}
    {args : List Byte} {p : W} {j : Nat} {b : Byte} (h : SlotContents r tr m R) (hk : Known tr R)
    (hs : SlotInv r tr m R) (ht : R t = some ⟨id, c, .filling args p j⟩)
    (hb : args[j]? = some b) :
    SlotContents r (tr ++ [e])
      { m with buffer := Function.update m.buffer (r.addr (p &&& r.mask) + j) b }
      (Function.update R t (some ⟨id, c, .filling args p (j + 1)⟩)) := by
  have hfill : (slots m R).fill t = some (toNat p) := fill_of_filling ht
  have hj : j < r.objSize :=
    Nat.lt_of_lt_of_le (List.getElem?_eq_some_iff.1 hb).1 (hk.role t _ ht).2
  refine h.write ht rfl ?_ rfl hj (by rw [r.addr_and_mask]; rfl)
    (fun k hfull => ⟨hfull, index_ne_of_full hs hfill hfull⟩) (fun u b q e hne hu he hi => ?_)
  · exact congrArg (fun e => some (toNat p, e)) (Elem.ofList_take_succ hb)
  · exact hne (hs.inv.fill_fill (fill_of_view hu he) hfill hi).1

theorem contents_publish {t : Tid} {id : Nat} {c : Call r.objSize} {args : List Byte} {p : W}
    (h : SlotContents r tr m R) (hk : Known tr R)
    (ht : R t = some ⟨id, c, .filling args p args.length⟩) (hadd : toNat (p + 1) = toNat p + 1) :
    SlotContents r (tr ++ [.op t id c (.storeSlot (p &&& r.mask) (p + 1)) ()])
      { m with slot := Function.update m.slot (toNat (p &&& r.mask)) (p + 1) }
      (Function.update R t (some ⟨id, c, .pushed p⟩)) := by
  rw [r.toNat_and_mask]
  refine h.publish ht rfl rfl rfl rfl ?_ fun k hseq => ?_
  · obtain ⟨rfl, -⟩ := hk.role t _ ht
    refine ⟨args, ⟨t, id, p, ?_, rfl, by simp⟩, by rw [List.take_length]⟩
    exact mem_claims_append (hk.push.own t _ p ht rfl) _
  · by_cases hi : r.index k = r.index (toNat p)
    · simp only [view, hi, Function.update_self, hadd] at hseq
      exact .inl (Nat.succ.inj hseq).symm
    · simp only [view, Function.update_of_ne hi] at hseq
      exact .inr hseq

theorem contents_release {e : Ev W Tid r.objSize} {t : Tid} {id : Nat} {c c' : Call r.objSize}
    {d : W} {bs : List Byte} (h : SlotContents r tr m R)
    (ht : R t = some ⟨id, c, .draining c' d bs⟩) (hadd : toNat (d + r.objNum) = toNat d + r.cap) :
    SlotContents r (tr ++ [e])
      { m with slot := Function.update m.slot (toNat (d &&& r.mask)) (d + r.objNum) }
      (Function.update R t (some ⟨id, c, .popped c' d bs⟩)) := by
  rw [r.toNat_and_mask]
  refine h.keep ht rfl (fun k hseq => ?_) (.inl rfl) (.inr rfl)
  by_cases hi : r.index k = r.index (toNat d)
  · -- The slot waits for a push, so it holds no element.
    simp only [view, hi, Function.update_self, hadd] at hseq
    have hmod : (k + 1) % r.cap = toNat d % r.cap := mod_eq_of_add hseq
    exact absurd (hmod.trans hi.symm) (succ_mod_ne r.two_le_cap)
  · simpa only [view, Function.update_of_ne hi] using hseq

theorem contents_op {t : Tid} {id : Nat} {c : Call r.objSize} {l l' : Role W r.objSize}
    {o : Op W} {x : o.Res} (hbig : Fits W (toNat m.head + r.cap)) (hk : Known tr R)
    (hs : SlotInv r tr m R)
    (hs' : SlotInv r (tr ++ [.op t id c o x]) m' (Function.update R t (some ⟨id, c, l'⟩)))
    (h : SlotContents r tr m R) (ht : R t = some ⟨id, c, l⟩) (hm : Trans r l o x l')
    (he : exec t o m = (x, m')) :
    SlotContents r (tr ++ [.op t id c o x]) m' (Function.update R t (some ⟨id, c, l'⟩)) := by
  have hcap := r.two_le_cap
  have hle : toNat m.tail ≤ toNat m.head := hs.inv.tail_le
  cases hm with
  | claimHead _ =>
    obtain ⟨-, rfl⟩ := exec_casHead he
    exact h.start_fill (congrArg (fun e => some (_, e)) Elem.ofList_nil) rfl rfl fun _ hk => hk
  | missHead =>
    obtain rfl := exec_casHead_false he
    exact h.keep ht rfl (fun _ hk => hk) (.inl rfl) (.inl rfl)
  | copyIn hb =>
    obtain ⟨-, rfl⟩ := Prod.mk.inj he
    exact contents_copyIn h hk hs ht hb
  | @publish args p =>
    obtain ⟨-, rfl⟩ := Prod.mk.inj he
    have hlt : toNat p < toNat m.head := (hs.inv.fill t _ (fill_of_filling ht)).2.1
    exact contents_publish h hk ht (toNat_succ hlt.le (by omega) hbig)
  | @claimTail c' d seq hdif =>
    obtain ⟨-, rfl⟩ := exec_casTail he
    have hd : (view r Tid).full m (toNat d) :=
      full_of_drain hs' (drain_of_draining (Function.update_self ..))
    exact h.start_read rfl rfl rfl (fun _ hk => hk) hd
  | missTail =>
    obtain rfl := exec_casTail_false he
    exact h.keep ht rfl (fun _ hk => hk) (.inl rfl) (.inl rfl)
  | @copyOut size d bs b hlt hsize =>
    obtain ⟨rfl, rfl⟩ := Prod.mk.inj he
    rw [r.addr_and_mask]
    refine h.read_byte ht rfl rfl rfl (by omega) (full_of_drain hs (drain_of_draining ht)) ?_
    rintro e e' ⟨args, hp, rfl⟩ ⟨args', hp', rfl⟩
    rw [hp.args_eq hs.head hp']
  | @release c' d bs _ =>
    obtain ⟨-, rfl⟩ := Prod.mk.inj he
    have hlt : toNat d < toNat m.tail := (hs.inv.drain t _ (drain_of_draining ht)).1
    exact contents_release h ht (toNat_add (fits_mono (by show toNat d + r.cap ≤ _; omega) hbig))
  | _ =>
    obtain ⟨-, rfl⟩ := Prod.mk.inj he
    exact h.keep ht rfl (fun _ hk => hk) (.inr rfl) (.inr rfl)

/-! ## Runs -/

/-- Everything known of a state whose counters have not overflowed. -/
structure Inv (r : Ring W) (tr : List (Ev W Tid r.objSize)) (m : Mem W Tid)
    (R : MRoles Tid W r.objSize) : Prop where
  known : Known tr R
  slots : SlotInv r tr m R
  contents : SlotContents r tr m R

omit [DecidableEq Tid] in
theorem Fresh.contents {m₀ : Mem W Tid} (hf : Fresh r m₀) (hcap : Fits W r.cap) :
    SlotContents r [] m₀ fun _ => none := by
  refine ⟨by simp, fun k hseq => ?_, by simp⟩
  have hlt := r.index_lt k
  simp only [view] at hseq
  rw [hf.slot _ hlt, toNat_ofNat (fits_mono hlt.le hcap)] at hseq
  have : r.index k ≤ k := Nat.mod_le ..
  omega

theorem contents_inductive {m₀ : Mem W Tid} (hf : Fresh r m₀) :
    InductiveUnder (proto r) (sys r Tid) m₀
      (fun tr m R => Known tr R ∧ (NoOverflow r tr → SlotInv r tr m R))
      fun tr m R => NoOverflow r tr → SlotContents r tr m R := by
  refine InductiveUnder.guard (B := NoOverflow r) (fun _ _ h => h.of_append) ?_
  refine ⟨fun hA => ?_, fun _ hA h ht _ _ => ?_, fun _ hA h ht hm he hA' => ?_,
    fun _ hA h ht _ _ => ?_, fun _ _ he => he.elim⟩
  · exact hf.contents (by simpa [NoOverflow] using hA.1)
  · exact h.same rfl (fun _ hk => hk) (by rintro _ _ _ ⟨⟩ ⟨⟩) (by rintro _ _ _ ⟨⟩ ⟨⟩)
  · obtain ⟨hb, hk, hs⟩ := hA
    obtain ⟨hb', -, hs'⟩ := hA'
    exact contents_op (hb'.fits (hs hb)) hk (hs hb) (hs' hb') h ht hm he
  · exact h.same rfl (fun _ hk => hk) (by simp) (by simp)

variable {m₀ : Mem W Tid} {c : Config (Op W) Op.Res Empty Tid (Call r.objSize) Ret (Mem W Tid)}

theorem inv_run (hf : Fresh r m₀) (h : Run (sys r Tid) (.start m₀) tr c) (hb : NoOverflow r tr) :
    ∃ R, (∀ t, Follow (proto r) (c.thread t) (R t)) ∧ Inv r tr c.shared R := by
  obtain ⟨R, hF, -, ⟨hk, hs⟩, hc⟩ :=
    ((known_inductive.both (slotInv_inductive hf)).and (contents_inductive hf)).run
      (follows r Tid) h
  exact ⟨R, hF, hk, hs hb, hc hb⟩

theorem inv_before_op {tr₁ tr₂ : List (Ev W Tid r.objSize)} {t : Tid} {id : Nat}
    {a : Call r.objSize} {o : Op W} {x : o.Res} (hf : Fresh r m₀)
    (h : Run (sys r Tid) (.start m₀) (tr₁ ++ .op t id a o x :: tr₂) c)
    (hb : NoOverflow r (tr₁ ++ .op t id a o x :: tr₂)) :
    ∃ m R l l', Inv r tr₁ m R ∧ R t = some ⟨id, a, l⟩ ∧ Trans r l o x l' ∧
      (exec t o m).1 = x := by
  obtain ⟨n, m, m', R, l, l', -, ⟨⟨hk, hs⟩, hc⟩, ht, hm, he⟩ :=
    ((known_inductive.both (slotInv_inductive hf)).and (contents_inductive hf)).before_op
      (follows r Tid) h
  exact ⟨m, R, l, l', ⟨hk, hs hb.of_append, hc hb.of_append⟩, ht, hm, congrArg Prod.fst he⟩

theorem inv_before_ret {tr₁ tr₂ : List (Ev W Tid r.objSize)} {t : Tid} {id : Nat}
    {a : Call r.objSize} {v : Ret} (hf : Fresh r m₀)
    (h : Run (sys r Tid) (.start m₀) (tr₁ ++ .ret t id a v :: tr₂) c)
    (hb : NoOverflow r (tr₁ ++ .ret t id a v :: tr₂)) :
    ∃ m R l, Inv r tr₁ m R ∧ R t = some ⟨id, a, l⟩ ∧ (proto r).final l v := by
  obtain ⟨n, m, R, l, -, ⟨⟨hk, hs⟩, hc⟩, ht, hfin⟩ :=
    ((known_inductive.both (slotInv_inductive hf)).and (contents_inductive hf)).before_ret
      (follows r Tid) h
  exact ⟨m, R, l, ⟨hk, hs hb.of_append, hc hb.of_append⟩, ht, hfin⟩

end Mpmc

end RingBuf
