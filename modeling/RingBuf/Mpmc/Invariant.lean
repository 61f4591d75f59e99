import RingBuf.Mpmc.Protocol

/-!
# The Mpmc slot invariant

`SlotInv` ties a state of the Mpmc system to the slot discipline of `RingBuf.Mpmc.Slots`: read
as natural numbers, the counters, the slot words and the threads' claims satisfy `Slots.Inv`,
and what a thread read before its compare-exchange still means what the code takes it to mean.
It holds in every run in which the counters do not overflow (`slotInv_inductive`).
-/

namespace RingBuf

open Conc Word LawfulWord

namespace Mpmc

variable {W Tid : Type} [Word W]

/-- An event of the Mpmc system. -/
abbrev Ev (W Tid : Type) (n : Nat) := Event (Op W) Op.Res Tid (Call n) Ret

/-- The positions taken by pushes, in the order of their compare-exchanges. -/
abbrev pushClaims {n : Nat} (tr : List (Ev W Tid n)) : List (Claim Tid (Call n) W) :=
  claims takeHead tr

/-- The positions taken by pops, in the order of their compare-exchanges. -/
abbrev popClaims {n : Nat} (tr : List (Ev W Tid n)) : List (Claim Tid (Call n) W) :=
  claims takeTail tr

/-! ## States as slots -/

/-- The roles of the threads of the Mpmc system. -/
abbrev MRoles (Tid W : Type) (n : Nat) := Roles Tid (Call n) (Role W n)

/-- A state, read as counters, slot numbers and claims. -/
def slots {n : Nat} (m : Mem W Tid) (R : MRoles Tid W n) : Slots Tid where
  head := toNat m.head
  tail := toNat m.tail
  seq i := toNat (m.slot i)
  fill t := (R t).bind (·.role.fill)
  drain t := (R t).bind (·.role.drain)

/-- What a thread that has read a counter knows. -/
def Knows (n : Nat) (s : Slots Tid) {k : Nat} : Role W k → Prop
  | .sawHead _ h => toNat h ≤ s.head
  | .sawPushSeq _ h seq => s.PushReady n (toNat h) (toNat seq)
  | .sawTail _ d => toNat d ≤ s.tail
  | .sawPopSeq _ d seq => s.PopReady n (toNat d) (toNat seq)
  | _ => True

/-- The invariant behind mutual exclusion and order. -/
structure SlotInv (r : Ring W) (tr : List (Ev W Tid r.objSize)) (m : Mem W Tid)
    (R : MRoles Tid W r.objSize) : Prop where
  head : Numbered toNat (pushClaims tr) (toNat m.head)
  tail : Numbered toNat (popClaims tr) (toNat m.tail)
  inv : (slots m R).Inv r.cap
  knows : ∀ t a, R t = some a → Knows r.cap (slots m R) a.role

/-- The slots follow the discipline, and what the threads have read means what they take it to
mean. -/
structure Disciplined (r : Ring W) (m : Mem W Tid) (R : MRoles Tid W r.objSize) : Prop where
  inv : (slots m R).Inv r.cap
  knows : ∀ t a, R t = some a → Knows r.cap (slots m R) a.role

theorem SlotInv.disciplined {r : Ring W} {tr : List (Ev W Tid r.objSize)} {m : Mem W Tid}
    {R : MRoles Tid W r.objSize} (hi : SlotInv r tr m R) : Disciplined r m R :=
  ⟨hi.inv, hi.knows⟩

/-- No counter and no slot word of the run has overflowed. -/
def NoOverflow [LawfulWord W] (r : Ring W) (tr : List (Ev W Tid r.objSize)) : Prop :=
  Fits W ((pushClaims tr).length + r.cap)

variable {r : Ring W} {tr tr' : List (Ev W Tid r.objSize)} {m m' : Mem W Tid}
  {R : MRoles Tid W r.objSize}

theorem fill_of_filling {t : Tid} {id : Nat} {c : Call r.objSize}
    {args : List Byte} {h : W} {j : Nat} (ht : R t = some ⟨id, c, .filling args h j⟩) :
    (slots m R).fill t = some (toNat h) := by
  simp [slots, ht, Role.fill]

theorem drain_of_draining {t : Tid} {id : Nat} {c c' : Call r.objSize}
    {d : W} {bs : List Byte} (ht : R t = some ⟨id, c, .draining c' d bs⟩) :
    (slots m R).drain t = some (toNat d) := by
  simp [slots, ht, Role.drain]

variable [DecidableEq Tid]

theorem slots_update (t : Tid) (x : Option (Active (Call r.objSize) (Role W r.objSize)))
    (s : Slots Tid) (hh : toNat m'.head = s.head) (ht : toNat m'.tail = s.tail)
    (hs : ∀ i, toNat (m'.slot i) = s.seq i)
    (hf : s.fill = Function.update (slots m R).fill t (x.bind (·.role.fill)))
    (hd : s.drain = Function.update (slots m R).drain t (x.bind (·.role.drain))) :
    slots m' (Function.update R t x) = s := by
  ext1
  · exact hh
  · exact ht
  · funext i; exact hs i
  · rw [hf]
    funext u
    by_cases hu : u = t
    · subst hu; simp [slots]
    · simp [slots, hu]
  · rw [hd]
    funext u
    by_cases hu : u = t
    · subst hu; simp [slots]
    · simp [slots, hu]

/-- A move that changes no counter, no slot word and no claim. -/
theorem slots_same {t : Tid} {x : Option (Active (Call r.objSize) (Role W r.objSize))}
    (hh : m'.head = m.head) (ht : m'.tail = m.tail) (hs : m'.slot = m.slot)
    (hf : x.bind (·.role.fill) = (slots m R).fill t)
    (hd : x.bind (·.role.drain) = (slots m R).drain t) :
    slots m' (Function.update R t x) = slots m R :=
  slots_update t x _ (congrArg toNat hh) (congrArg toNat ht) (fun i => by rw [hs]; rfl)
    (by rw [hf, Function.update_eq_self]) (by rw [hd, Function.update_eq_self])

/-- What the threads know after thread `t` has moved, if the move kept what the others knew. -/
theorem knows_update {s' : Slots Tid} {t : Tid}
    {y : Option (Active (Call r.objSize) (Role W r.objSize))} (hi : Disciplined r m R)
    (hk : ∀ l : Role W r.objSize, Knows r.cap (slots m R) l → Knows r.cap s' l)
    (hy : ∀ b, y = some b → Knows r.cap s' b.role) (u : Tid)
    (a : Active (Call r.objSize) (Role W r.objSize)) (hu : Function.update R t y u = some a) :
    Knows r.cap s' a.role := by
  rcases update_some_iff.1 hu with ⟨-, ha⟩ | ⟨-, ha⟩
  · exact hy a ha
  · exact hk _ (hi.knows u a ha)

theorem Disciplined.same {t : Tid} {y : Option (Active (Call r.objSize) (Role W r.objSize))}
    (hi : Disciplined r m R) (hs : slots m' (Function.update R t y) = slots m R)
    (hy : ∀ b, y = some b → Knows r.cap (slots m R) b.role) :
    Disciplined r m' (Function.update R t y) where
  inv := hs ▸ hi.inv
  knows := by
    rw [hs]
    exact knows_update hi (fun _ h => h) hy

/-! ## The four moves of the code -/

theorem Knows.claimPush {n : Nat} {s : Slots Tid} {t : Tid} {k : Nat} {l : Role W k}
    (h : Knows n s l) : Knows n (s.claimPush t) l := by
  cases l with
  | sawHead args h' => exact Nat.le_succ_of_le h
  | sawPushSeq args h' seq => exact Slots.PushReady.claimPush h
  | sawTail c d => exact h
  | sawPopSeq c d seq => exact Slots.PopReady.claimPush h
  | _ => trivial

theorem Knows.claimPop {n : Nat} {s : Slots Tid} {t : Tid} {k : Nat} {l : Role W k}
    (h : Knows n s l) : Knows n (s.claimPop t) l := by
  cases l with
  | sawHead args h' => exact h
  | sawPushSeq args h' seq => exact Slots.PushReady.claimPop h
  | sawTail c d => exact Nat.le_succ_of_le h
  | sawPopSeq c d seq => exact Slots.PopReady.claimPop h
  | _ => trivial

theorem Knows.publish {n : Nat} {s : Slots Tid} {t : Tid} {p k : Nat} {l : Role W k}
    (hi : s.Inv n) (ht : s.fill t = some p) (h : Knows n s l) : Knows n (s.publish n t p) l := by
  cases l with
  | sawHead args h' => exact h
  | sawPushSeq args h' seq => exact Slots.PushReady.publish hi ht h
  | sawTail c d => exact h
  | sawPopSeq c d seq => exact Slots.PopReady.publish hi ht h
  | _ => trivial

theorem Knows.release {n : Nat} {s : Slots Tid} {t : Tid} {p k : Nat} {l : Role W k}
    (hi : s.Inv n) (hn : 2 ≤ n) (ht : s.drain t = some p) (h : Knows n s l) :
    Knows n (s.release n t p) l := by
  cases l with
  | sawHead args h' => exact h
  | sawPushSeq args h' seq => exact Slots.PushReady.release hi hn ht h
  | sawTail c d => exact h
  | sawPopSeq c d seq => exact Slots.PopReady.release hi ht h
  | _ => trivial

theorem slots_claimPush {t : Tid} {i : Nat} {c : Call r.objSize} {a : List Byte} {h : W}
    (ht : (slots m R).drain t = none) (hh : m.head = h) (hadd : toNat (h + 1) = toNat h + 1) :
    slots { m with head := h + 1 } (Function.update R t (some ⟨i, c, .filling a h 0⟩)) =
      (slots m R).claimPush t := by
  subst hh
  refine slots_update t _ _ hadd rfl (fun _ => rfl) rfl ?_
  show (slots m R).drain = Function.update (slots m R).drain t none
  rw [← ht, Function.update_eq_self]

theorem slots_claimPop {t : Tid} {i : Nat} {c e : Call r.objSize} {d : W}
    (ht : (slots m R).fill t = none) (hd : m.tail = d) (hadd : toNat (d + 1) = toNat d + 1) :
    slots { m with tail := d + 1 } (Function.update R t (some ⟨i, c, .draining e d []⟩)) =
      (slots m R).claimPop t := by
  subst hd
  refine slots_update t _ _ rfl hadd (fun _ => rfl) ?_ rfl
  show (slots m R).fill = Function.update (slots m R).fill t none
  rw [← ht, Function.update_eq_self]

variable [LawfulWord W]

theorem slots_publish {t : Tid} {i : Nat} {c : Call r.objSize} {h : W}
    (ht : (slots m R).drain t = none) (hadd : toNat (h + 1) = toNat h + 1) :
    slots { m with slot := Function.update m.slot (toNat (h &&& r.mask)) (h + 1) }
      (Function.update R t (some ⟨i, c, .pushed h⟩)) =
      (slots m R).publish r.cap t (toNat h) := by
  refine slots_update t _ _ rfl rfl (fun k => ?_) rfl ?_
  · rw [r.toNat_and_mask]
    by_cases hk : k = r.index (toNat h)
    · subst hk; simpa [Slots.publish, Ring.index] using hadd
    · have hk' : k ≠ toNat h % r.cap := hk
      simp [Slots.publish, hk, hk', slots]
  · show (slots m R).drain = Function.update (slots m R).drain t none
    rw [← ht, Function.update_eq_self]

theorem slots_release {t : Tid} {i : Nat} {c e : Call r.objSize} {d : W} {b : List Byte}
    (ht : (slots m R).fill t = none) (hadd : toNat (d + r.objNum) = toNat d + r.cap) :
    slots { m with slot := Function.update m.slot (toNat (d &&& r.mask)) (d + r.objNum) }
      (Function.update R t (some ⟨i, c, .popped e d b⟩)) =
      (slots m R).release r.cap t (toNat d) := by
  refine slots_update t _ _ rfl rfl (fun k => ?_) ?_ rfl
  · rw [r.toNat_and_mask]
    by_cases hk : k = r.index (toNat d)
    · subst hk; simpa [Slots.release, Ring.index] using hadd
    · have hk' : k ≠ toNat d % r.cap := hk
      simp [Slots.release, hk, hk', slots]
  · show (slots m R).fill = Function.update (slots m R).fill t none
    rw [← ht, Function.update_eq_self]

/-! ## Every move keeps the invariant -/

theorem toNat_succ {w : W} {n : Nat} (hw : toNat w ≤ n) (hn : 1 ≤ r.cap)
    (hb : Fits W (n + r.cap)) : toNat (w + 1) = toNat w + 1 := by
  rw [toNat_add (fits_mono (by rw [toNat_one]; omega) hb), toNat_one]

omit [DecidableEq Tid] in
theorem NoOverflow.of_append (hb : NoOverflow r (tr ++ tr')) : NoOverflow r tr :=
  fits_mono (Nat.add_le_add_right (length_claims_le tr') _) hb

omit [DecidableEq Tid] in
theorem NoOverflow.fits {e : Ev W Tid r.objSize} (hb : NoOverflow r (tr ++ [e]))
    (hi : SlotInv r tr m R) : Fits W (toNat m.head + r.cap) := by
  rw [← hi.head.length]
  exact hb.of_append

omit [LawfulWord W] in
/-- What a move does to `head_`: nothing, or it takes its value and increments it. -/
theorem Trans.head {t : Tid} {l l' : Role W r.objSize} {o : Op W} {x : o.Res}
    (hm : Trans r l o x l') (he : exec t o m = (x, m')) :
    (takeHead o x = none ∧ m'.head = m.head) ∨
      (takeHead o x = some m.head ∧ m'.head = m.head + 1) := by
  cases hm with
  | claimHead _ =>
    obtain ⟨rfl, rfl⟩ := exec_casHead he
    exact .inr ⟨rfl, rfl⟩
  | missHead =>
    obtain rfl := exec_casHead_false he
    exact .inl ⟨rfl, rfl⟩
  | claimTail _ =>
    obtain ⟨-, rfl⟩ := exec_casTail he
    exact .inl ⟨rfl, rfl⟩
  | missTail =>
    obtain rfl := exec_casTail_false he
    exact .inl ⟨rfl, rfl⟩
  | _ =>
    obtain ⟨-, rfl⟩ := Prod.mk.inj he
    exact .inl ⟨rfl, rfl⟩

omit [LawfulWord W] in
theorem Trans.tail {t : Tid} {l l' : Role W r.objSize} {o : Op W} {x : o.Res}
    (hm : Trans r l o x l') (he : exec t o m = (x, m')) :
    (takeTail o x = none ∧ m'.tail = m.tail) ∨
      (takeTail o x = some m.tail ∧ m'.tail = m.tail + 1) := by
  cases hm with
  | claimHead _ =>
    obtain ⟨-, rfl⟩ := exec_casHead he
    exact .inl ⟨rfl, rfl⟩
  | missHead =>
    obtain rfl := exec_casHead_false he
    exact .inl ⟨rfl, rfl⟩
  | claimTail _ =>
    obtain ⟨rfl, rfl⟩ := exec_casTail he
    exact .inr ⟨rfl, rfl⟩
  | missTail =>
    obtain rfl := exec_casTail_false he
    exact .inl ⟨rfl, rfl⟩
  | _ =>
    obtain ⟨-, rfl⟩ := Prod.mk.inj he
    exact .inl ⟨rfl, rfl⟩

/-- Every move keeps the discipline, as long as no counter overflows. -/
theorem Disciplined.op {t : Tid} {id : Nat} {c : Call r.objSize} {l l' : Role W r.objSize}
    {o : Op W} {x : o.Res} (hbig : Fits W (toNat m.head + r.cap)) (hi : Disciplined r m R)
    (ht : R t = some ⟨id, c, l⟩) (hm : Trans r l o x l') (he : exec t o m = (x, m')) :
    Disciplined r m' (Function.update R t (some ⟨id, c, l'⟩)) := by
  have hcap := r.two_le_cap
  have hle : toNat m.tail ≤ toNat m.head := hi.inv.tail_le
  have hknow := hi.knows t _ ht
  have hsf : (slots m R).fill t = l.fill := by simp [slots, ht]
  have hsd : (slots m R).drain t = l.drain := by simp [slots, ht]
  -- What all moves but the four of the discipline share.
  have same (hh : m'.head = m.head) (ht : m'.tail = m.tail) (hs : m'.slot = m.slot)
      (hf : l'.fill = l.fill) (hd : l'.drain = l.drain) (hl' : Knows r.cap (slots m R) l') :
      Disciplined r m' (Function.update R t (some ⟨id, c, l'⟩)) :=
    hi.same (slots_same hh ht hs (hf.trans hsf.symm) (hd.trans hsd.symm))
      (by rintro _ ⟨⟩; exact hl')
  cases hm with
  | loadHead _ =>
    obtain ⟨rfl, rfl⟩ := Prod.mk.inj he
    exact same rfl rfl rfl rfl rfl le_rfl
  | @pushSeq args h seq =>
    obtain ⟨rfl, rfl⟩ := Prod.mk.inj he
    refine same rfl rfl rfl rfl rfl ?_
    have := hi.inv.pushReady hcap hknow
    simpa [Knows, r.toNat_and_mask, Ring.index, slots] using this
  | @claimHead args h seq hdif =>
    obtain ⟨hh, rfl⟩ := exec_casHead he
    have hseq : toNat seq = toNat h := by rw [dif_eq_zero.1 hdif]
    have hadd : toNat (h + 1) = toNat h + 1 := toNat_succ (by rw [hh]) (by omega) hbig
    have habs := slots_claimPush (i := id) (c := c) (a := args) hsd hh hadd
    have hh' : (slots m R).head = toNat h := congrArg toNat hh
    obtain ⟨hfree, hlt⟩ := hknow.2 hseq hh'
    exact ⟨habs ▸ hi.inv.claimPush hcap hsf (by rw [hh']; exact hfree) (by rw [hh']; exact hlt),
      habs ▸ knows_update hi (fun _ => .claimPush) (by rintro _ ⟨⟩; trivial)⟩
  | missHead =>
    obtain rfl := exec_casHead_false he
    exact same rfl rfl rfl rfl rfl trivial
  | copyIn _ =>
    obtain ⟨-, rfl⟩ := Prod.mk.inj he
    exact same rfl rfl rfl rfl rfl trivial
  | @publish args h =>
    obtain ⟨-, rfl⟩ := Prod.mk.inj he
    have hfill : (slots m R).fill t = some (toNat h) := hsf
    have hlt : toNat h < toNat m.head := (hi.inv.fill t _ hfill).2.1
    have habs := slots_publish (i := id) (c := c) hsd (toNat_succ hlt.le (by omega) hbig)
    exact ⟨habs ▸ hi.inv.publish hfill,
      habs ▸ knows_update hi (fun _ => .publish hi.inv hfill) (by rintro _ ⟨⟩; trivial)⟩
  | loadTail _ _ =>
    obtain ⟨rfl, rfl⟩ := Prod.mk.inj he
    exact same rfl rfl rfl rfl rfl le_rfl
  | @popSeq c' d seq =>
    obtain ⟨rfl, rfl⟩ := Prod.mk.inj he
    refine same rfl rfl rfl rfl rfl ?_
    have := hi.inv.popReady hcap hknow
    simpa [Knows, r.toNat_and_mask, Ring.index, slots] using this
  | @claimTail c' d seq hdif =>
    obtain ⟨hd, rfl⟩ := exec_casTail he
    have hadd : toNat (d + 1) = toNat d + 1 := toNat_succ (by rw [← hd]; exact hle) (by omega) hbig
    have hseq : toNat seq = toNat d + 1 := by rw [dif_eq_zero.1 hdif, hadd]
    have habs := slots_claimPop (i := id) (c := c) (e := c') hsf hd hadd
    have hd' : (slots m R).tail = toNat d := congrArg toNat hd
    obtain ⟨hfull, hlt⟩ := hknow.2 hseq hd'
    exact ⟨habs ▸ hi.inv.claimPop hsd (by rw [hd']; exact hfull) (by rw [hd']; exact hlt),
      habs ▸ knows_update hi (fun _ => .claimPop) (by rintro _ ⟨⟩; trivial)⟩
  | missTail =>
    obtain rfl := exec_casTail_false he
    exact same rfl rfl rfl rfl rfl trivial
  | copyOut _ _ =>
    obtain ⟨-, rfl⟩ := Prod.mk.inj he
    exact same rfl rfl rfl rfl rfl trivial
  | enterCb =>
    obtain ⟨-, rfl⟩ := Prod.mk.inj he
    exact same rfl rfl rfl rfl rfl trivial
  | readCb _ =>
    obtain ⟨-, rfl⟩ := Prod.mk.inj he
    exact same rfl rfl rfl rfl rfl trivial
  | @release c' d bs _ =>
    obtain ⟨-, rfl⟩ := Prod.mk.inj he
    have hdrain : (slots m R).drain t = some (toNat d) := hsd
    have hlt : toNat d < toNat m.tail := (hi.inv.drain t _ hdrain).1
    have hadd : toNat (d + r.objNum) = toNat d + r.cap :=
      toNat_add (fits_mono (by show toNat d + r.cap ≤ _; omega) hbig)
    have habs := slots_release (i := id) (c := c) (e := c') (b := bs) hsf hadd
    exact ⟨habs ▸ hi.inv.release hdrain,
      habs ▸ knows_update hi (fun _ => .release hi.inv hcap hdrain) (by rintro _ ⟨⟩; trivial)⟩

omit [LawfulWord W] in
theorem Disciplined.call {t : Tid} (hi : Disciplined r m R) (ht : R t = none) (id : Nat)
    (c : Call r.objSize) :
    Disciplined r m (Function.update R t (some ⟨id, c, (proto r).start c⟩)) := by
  refine hi.same (slots_same rfl rfl rfl ?_ ?_) (by rintro _ ⟨⟩; trivial) <;>
    simp [slots, ht, proto] <;> rfl

omit [DecidableEq Tid] [LawfulWord W] in
/-- A thread may only return when it has no claimed slot. -/
theorem released_of_final {l : Role W r.objSize} {v : Ret} (h : (proto r).final l v) :
    l.fill = none ∧ l.drain = none := by
  cases l with
  | filling => exact h.elim
  | draining => exact h.elim
  | _ => exact ⟨rfl, rfl⟩

omit [LawfulWord W] in
theorem Disciplined.ret {t : Tid} {id : Nat} {c : Call r.objSize} {l : Role W r.objSize} {v : Ret}
    (hi : Disciplined r m R) (ht : R t = some ⟨id, c, l⟩) (hfin : (proto r).final l v) :
    Disciplined r m (Function.update R t none) := by
  obtain ⟨hfill, hdrain⟩ := released_of_final hfin
  refine hi.same (slots_same rfl rfl rfl ?_ ?_) (by simp) <;> simp [slots, ht, hfill, hdrain]

theorem slotInv_op {t : Tid} {id : Nat} {c : Call r.objSize} {l l' : Role W r.objSize}
    {o : Op W} {x : o.Res} (hb : NoOverflow r (tr ++ [.op t id c o x])) (hi : SlotInv r tr m R)
    (ht : R t = some ⟨id, c, l⟩) (hm : Trans r l o x l') (he : exec t o m = (x, m')) :
    SlotInv r (tr ++ [.op t id c o x]) m' (Function.update R t (some ⟨id, c, l'⟩)) := by
  have hbig : Fits W (toNat m.head + r.cap) := hb.fits hi
  have hle : toNat m.tail ≤ toNat m.head := hi.inv.tail_le
  have hcap := r.two_le_cap
  have hd := hi.disciplined.op hbig ht hm he
  refine ⟨?_, ?_, hd.inv, hd.knows⟩
  · rcases hm.head he with ⟨ho, hh⟩ | ⟨ho, hh⟩
    · rw [hh]
      exact hi.head.op_none ho
    · rw [hh, toNat_succ le_rfl (by omega) hbig]
      exact hi.head.op_some ho rfl
  · rcases hm.tail he with ⟨ho, hh⟩ | ⟨ho, hh⟩
    · rw [hh]
      exact hi.tail.op_none ho
    · rw [hh, toNat_succ hle (by omega) hbig]
      exact hi.tail.op_some ho rfl

/-- Memory as `get_buf` leaves it for an Mpmc ring. -/
structure Fresh (r : Ring W) (m : Mem W Tid) : Prop where
  head : m.head = 0
  tail : m.tail = 0
  slot : ∀ i < r.cap, m.slot i = ofNat i

omit [DecidableEq Tid] in
theorem Fresh.slotInv {m₀ : Mem W Tid} (hf : Fresh r m₀) (hcap : Fits W r.cap) :
    SlotInv r [] m₀ fun _ => none := by
  have hh : toNat m₀.head = 0 := (congrArg toNat hf.head).trans toNat_zero
  have ht : toNat m₀.tail = 0 := (congrArg toNat hf.tail).trans toNat_zero
  refine ⟨hh ▸ .nil, ht ▸ .nil, Slots.inv_init r.two_le_cap (fun i hi => ?_) hh ht (by simp [slots])
    (by simp [slots]), by simp⟩
  show toNat (m₀.slot i) = i
  rw [hf.slot i hi, toNat_ofNat (fits_mono hi.le hcap)]

/-- **The slot invariant** holds along every run whose counters do not overflow. -/
theorem slotInv_inductive {m₀ : Mem W Tid} (hf : Fresh r m₀) :
    Inductive (proto r) (sys r Tid) m₀ fun tr m R => NoOverflow r tr → SlotInv r tr m R := by
  refine InductiveUnder.guard (A := fun _ _ _ => True) (B := NoOverflow r)
    (fun _ _ h => h.of_append) ?_
  refine ⟨fun hb => ?_, fun {_ _ _ _ id a} _ _ hi ht _ _ => ?_, fun _ _ hi ht hm he hA => ?_,
    fun _ _ hi ht hfin _ => ?_, fun _ _ he => he.elim⟩
  · exact hf.slotInv (by simpa [NoOverflow] using hb.1)
  · have hd := hi.disciplined.call ht id a
    refine ⟨?_, ?_, hd.inv, hd.knows⟩
    · rw [pushClaims, claims_snoc_call]
      exact hi.head
    · rw [popClaims, claims_snoc_call]
      exact hi.tail
  · exact slotInv_op hA.1 hi ht hm he
  · have hd := hi.disciplined.ret ht hfin
    refine ⟨?_, ?_, hd.inv, hd.knows⟩
    · rw [pushClaims, claims_snoc_ret]
      exact hi.head
    · rw [popClaims, claims_snoc_ret]
      exact hi.tail

end Mpmc

end RingBuf
