import RingBuf.Mpsc.Marks
import RingBuf.Mpsc.Protocol

/-!
# The Mpsc slot invariant

`SlotInv` ties a state of the Mpsc system to the discipline of `RingBuf.Mpsc.Marks`: read as
natural numbers, the counters, the slot marks and what the threads have in hand satisfy
`Marks.Inv`, and the counters that threads have read are still bounds. Nothing is assumed of
`local_head`. It holds in every run of fewer than `2 ^ 63` pushes (`slotInv_inductive`).
-/

namespace RingBuf

open Conc Word LawfulWord

namespace Mpsc

variable {Tid : Type}

/-- An event of the Mpsc system. -/
abbrev Ev (Tid : Type) (n : Nat) := Event (Op SizeT) Op.Res Tid (Call n) Ret

/-- The roles of the threads of the Mpsc system. -/
abbrev MRoles (Tid : Type) (n : Nat) := Roles Tid (Call n) (Role n)

/-- The positions taken by pushes, in the order of their compare-exchanges. -/
abbrev pushClaims {n : Nat} (tr : List (Ev Tid n)) : List (Claim Tid (Call n) SizeT) :=
  claims takeHead tr

/-- The positions given back by pops, in the order of their stores of `tail_`. -/
abbrev popClaims {n : Nat} (tr : List (Ev Tid n)) : List (Claim Tid (Call n) SizeT) :=
  claims putTail tr

/-! ## The position of a call -/

/-- The position the call has taken from `head_`. -/
def Role.pushPos {n : Nat} : Role n → Option SizeT
  | .filling _ h _ | .pushed h => some h
  | _ => none

/-- The position the call has given back. -/
def Role.popPos {n : Nat} : Role n → Option SizeT
  | .popped _ d _ => some d
  | _ => none

/-- The role is one of call `c`. -/
def Role.Of {n : Nat} (c : Call n) : Role n → Prop
  | .start c' => c' = c
  | .sawHead args _ | .sawTail args _ _ | .filling args _ _ => c = .push args ∧ args.length ≤ n
  | .pushed _ | .lost => ∃ args, c = .push args
  | .popTail c' _ | .popCache c' _ | .popHead c' _ _ | .popSlot c' _ | .draining c' _ _ =>
    c' = c ∧ c.pops = true
  | .empty | .refused => c.pops = true
  | .cleared c' _ bs | .popped c' _ bs =>
    c' = c ∧ c.pops = true ∧ ∀ others size, c = .pop others size → bs.length = size

variable {r : Ring SizeT} {tr tr' : List (Ev Tid r.objSize)} {m m' : Mem SizeT Tid}
  {R : MRoles Tid r.objSize}

theorem Role.of_trans {c : Call r.objSize} {l l' : Role r.objSize} {o : Op SizeT} {x : o.Res}
    (hm : Trans r l o x l') (h : l.Of c) : l'.Of c := by
  cases hm with
  | loadHead hlen => exact ⟨h.symm, hlen⟩
  | missHead => exact ⟨_, h.1⟩
  | publish => exact ⟨_, h.1⟩
  | popTail hc _ =>
    obtain rfl := h
    exact ⟨rfl, hc⟩
  | setEmpty => exact h.2
  | refuse _ => exact h.2
  | clear hlen =>
    obtain ⟨rfl, hc⟩ := h
    exact ⟨rfl, hc, hlen⟩
  | _ => exact h

/-- Which claims belong to which call, and who the consumer is. -/
structure Known (tr : List (Ev Tid r.objSize)) (R : MRoles Tid r.objSize) : Prop where
  push : Once takeHead Role.pushPos tr R
  pop : Once putTail Role.popPos tr R
  role : ∀ t a, R t = some a → a.role.Of a.call
  one : ∀ t u a b, R t = some a → R u = some b → a.call.pops = true → b.call.pops = true → t = u

section Known

variable [DecidableEq Tid] {m₀ : Mem SizeT Tid}

theorem pushOnce_inductive :
    Inductive (proto r) (sys r Tid) m₀ fun tr _ R => Once takeHead Role.pushPos tr R := by
  refine once_inductive takeHead Role.pushPos (fun _ => rfl) (fun hm ho => ?_) (fun hm ho => ?_)
  · cases hm <;> first | rfl | cases ho
  · cases hm <;> cases ho
    exact ⟨rfl, rfl⟩

theorem popOnce_inductive :
    Inductive (proto r) (sys r Tid) m₀ fun tr _ R => Once putTail Role.popPos tr R := by
  refine once_inductive putTail Role.popPos (fun _ => rfl) (fun hm ho => ?_) (fun hm ho => ?_)
  · cases hm <;> first | rfl | cases ho
  · cases hm <;> cases ho
    exact ⟨rfl, congrArg some (BitVec.add_sub_cancel ..).symm⟩

theorem known_inductive : Inductive (proto r) (sys r Tid) m₀ fun tr _ R => Known tr R := by
  have hrole : Inductive (proto r) (sys r Tid) m₀ fun _ _ R =>
      ∀ t a, R t = some a → a.role.Of a.call :=
    roles_inductive (fun c l => Role.Of c l) (fun _ => rfl) Role.of_trans
  have hone : Inductive (proto r) (sys r Tid) m₀ fun _ _ R => ∀ t u a b,
      R t = some a → R u = some b → a.call.pops = true → b.call.pops = true → t = u := by
    refine alone_inductive (fun c : Call r.objSize => c.pops = true) fun ha hk u b hb => ?_
    rw [ha hk u b hb]
    exact Bool.false_ne_true
  refine (pushOnce_inductive.both (popOnce_inductive.both (hrole.both hone))).congr
    fun tr s R => ?_
  exact ⟨fun h => ⟨h.1, h.2.1, h.2.2.1, h.2.2.2⟩, fun h => ⟨h.push, h.pop, h.role, h.one⟩⟩

end Known

/-! ## States as marks -/

/-- The position claimed for writing. -/
def Role.fill {n : Nat} : Role n → Option Nat
  | .filling _ h _ => some (toNat h)
  | _ => none

/-- The position being read. -/
def Role.drain {n : Nat} : Role n → Option Nat
  | .draining _ d _ => some (toNat d)
  | _ => none

/-- The position cleared but not yet given back. -/
def Role.clearing {n : Nat} : Role n → Option Nat
  | .cleared _ d _ => some (toNat d)
  | _ => none

/-- A state, read as counters, marks and positions in hand. -/
def marks {n : Nat} (m : Mem SizeT Tid) (R : MRoles Tid n) : Marks Tid where
  head := toNat m.head
  tail := toNat m.tail
  valid i := m.slot i = slotValid
  fill t := (R t).bind (·.role.fill)
  drain t := (R t).bind (·.role.drain)
  cleared t := (R t).bind (·.role.clearing)

/-- What a thread that has read a counter knows. The consumer is the only one to move the
tail. -/
def Knows (s : Marks Tid) {n : Nat} : Role n → Prop
  | .sawHead _ h => toNat h ≤ s.head
  | .sawTail _ h d => toNat h ≤ s.head ∧ toNat d ≤ s.tail
  | .popTail _ d | .popCache _ d | .popHead _ d _ | .popSlot _ d => toNat d = s.tail
  | _ => True

/-- The invariant behind mutual exclusion and order. -/
structure SlotInv (r : Ring SizeT) (tr : List (Ev Tid r.objSize)) (m : Mem SizeT Tid)
    (R : MRoles Tid r.objSize) : Prop where
  head : Numbered toNat (pushClaims tr) (toNat m.head)
  tail : Numbered toNat (popClaims tr) (toNat m.tail)
  word : ∀ i < r.cap, m.slot i = slotEmpty ∨ m.slot i = slotValid
  inv : (marks m R).Inv r.cap
  knows : ∀ t a, R t = some a → Knows (marks m R) a.role

/-- Fewer than `2 ^ 63` pushes have succeeded. -/
def Bounded {n : Nat} (tr : List (Ev Tid n)) : Prop := (pushClaims tr).length < 2 ^ 63

theorem Bounded.of_append (h : Bounded (tr ++ tr')) : Bounded tr :=
  Nat.lt_of_le_of_lt (length_claims_le tr') h

theorem SlotInv.toNat_succ (hi : SlotInv r tr m R) (hb : Bounded tr) {w : SizeT}
    (hw : toNat w ≤ toNat m.head) : toNat (w + 1) = toNat w + 1 := by
  have hlen := hi.head.length
  exact toNat_add (show toNat w + 1 < 2 ^ 64 by simp only [Bounded] at hb; omega)

theorem fill_of_filling {t : Tid} {id : Nat} {c : Call r.objSize} {args : List Byte} {h : SizeT}
    {j : Nat} (ht : R t = some ⟨id, c, .filling args h j⟩) :
    (marks m R).fill t = some (toNat h) := by
  simp [marks, ht, Role.fill]

theorem drain_of_draining {t : Tid} {id : Nat} {c c' : Call r.objSize} {d : SizeT}
    {bs : List Byte} (ht : R t = some ⟨id, c, .draining c' d bs⟩) :
    (marks m R).drain t = some (toNat d) := by
  simp [marks, ht, Role.drain]

theorem cleared_of_cleared {t : Tid} {id : Nat} {c c' : Call r.objSize} {d : SizeT}
    {bs : List Byte} (ht : R t = some ⟨id, c, .cleared c' d bs⟩) :
    (marks m R).cleared t = some (toNat d) := by
  simp [marks, ht, Role.clearing]

/-- While a pop is in progress, no other thread reads or clears a slot. -/
theorem Known.only_consumer (hk : Known tr R) {t : Tid}
    {a : Active (Call r.objSize) (Role r.objSize)}
    (ht : R t = some a) (hc : a.call.pops = true) (u : Tid) (hu : u ≠ t) :
    (marks m R).drain u = none ∧ (marks m R).cleared u = none := by
  cases hb : R u with
  | none => simp [marks, hb]
  | some b =>
    have hnot : b.call.pops ≠ true := fun h => hu (hk.one u t b a hb ht h hc)
    have hof := hk.role u b hb
    obtain ⟨id, c, l⟩ := b
    cases l with
    | draining => exact absurd hof.2 hnot
    | cleared => exact absurd hof.2.1 hnot
    | _ => simp [marks, hb, Role.drain, Role.clearing]

variable [DecidableEq Tid]

theorem marks_update (t : Tid) (x : Option (Active (Call r.objSize) (Role r.objSize)))
    (s : Marks Tid) (hh : toNat m'.head = s.head) (ht : toNat m'.tail = s.tail)
    (hv : ∀ i, decide (m'.slot i = slotValid) = s.valid i)
    (hf : s.fill = Function.update (marks m R).fill t (x.bind (·.role.fill)))
    (hd : s.drain = Function.update (marks m R).drain t (x.bind (·.role.drain)))
    (hc : s.cleared = Function.update (marks m R).cleared t (x.bind (·.role.clearing))) :
    marks m' (Function.update R t x) = s := by
  ext1
  · exact hh
  · exact ht
  · funext i
    exact hv i
  · rw [hf]
    funext u
    by_cases hu : u = t
    · subst hu; simp [marks]
    · simp [marks, hu]
  · rw [hd]
    funext u
    by_cases hu : u = t
    · subst hu; simp [marks]
    · simp [marks, hu]
  · rw [hc]
    funext u
    by_cases hu : u = t
    · subst hu; simp [marks]
    · simp [marks, hu]

theorem marks_same {t : Tid} {x : Option (Active (Call r.objSize) (Role r.objSize))}
    (hh : m'.head = m.head) (ht : m'.tail = m.tail) (hs : m'.slot = m.slot)
    (hf : x.bind (·.role.fill) = (marks m R).fill t)
    (hd : x.bind (·.role.drain) = (marks m R).drain t)
    (hc : x.bind (·.role.clearing) = (marks m R).cleared t) :
    marks m' (Function.update R t x) = marks m R :=
  marks_update t x _ (congrArg toNat hh) (congrArg toNat ht) (fun i => by rw [hs]; rfl)
    (by rw [hf, Function.update_eq_self]) (by rw [hd, Function.update_eq_self])
    (by rw [hc, Function.update_eq_self])

/-- What the threads know after thread `t` has moved, if the move kept what the others knew. -/
theorem knows_update {s' : Marks Tid} {t : Tid}
    {y : Option (Active (Call r.objSize) (Role r.objSize))} (hi : SlotInv r tr m R)
    (hk : ∀ u a, u ≠ t → R u = some a → Knows (marks m R) a.role → Knows s' a.role)
    (hy : ∀ b, y = some b → Knows s' b.role) (u : Tid)
    (a : Active (Call r.objSize) (Role r.objSize)) (hu : Function.update R t y u = some a) :
    Knows s' a.role := by
  rcases update_some_iff.1 hu with ⟨-, ha⟩ | ⟨hne, ha⟩
  · exact hy a ha
  · exact hk u a hne ha (hi.knows u a ha)

/-- A move that changes no counter, no mark and nothing in hand keeps the invariant. -/
theorem SlotInv.same {t : Tid} {y : Option (Active (Call r.objSize) (Role r.objSize))}
    (hi : SlotInv r tr m R) (hpush : pushClaims tr' = pushClaims tr)
    (hpop : popClaims tr' = popClaims tr) (hh : m'.head = m.head) (ht : m'.tail = m.tail)
    (hslot : m'.slot = m.slot) (hs : marks m' (Function.update R t y) = marks m R)
    (hy : ∀ b, y = some b → Knows (marks m R) b.role) :
    SlotInv r tr' m' (Function.update R t y) where
  head := by rw [hpush, hh]; exact hi.head
  tail := by rw [hpop, ht]; exact hi.tail
  word := by rw [hslot]; exact hi.word
  inv := hs ▸ hi.inv
  knows := by
    rw [hs]
    exact knows_update hi (fun _ _ _ _ h => h) hy

/-! ## The five moves of the code -/

/-- A push lets the others know what they knew. -/
theorem Knows.claim {s : Marks Tid} {t : Tid} {n : Nat} {l : Role n} (h : Knows s l) :
    Knows (s.claim t) l := by
  cases l with
  | sawHead args h' => exact Nat.le_succ_of_le h
  | sawTail args h' d => exact ⟨Nat.le_succ_of_le h.1, h.2⟩
  | _ => exact h

theorem Knows.advance {s : Marks Tid} {t : Tid} {n : Nat} {c : Call n} {l : Role n}
    (hof : l.Of c) (hc : c.pops ≠ true) (h : Knows s l) : Knows (s.advance t) l := by
  cases l with
  | sawHead args h' => exact h
  | sawTail args h' d => exact ⟨h.1, Nat.le_succ_of_le h.2⟩
  | popTail => exact absurd hof.2 hc
  | popCache => exact absurd hof.2 hc
  | popHead => exact absurd hof.2 hc
  | popSlot => exact absurd hof.2 hc
  | _ => trivial

theorem marks_claim {t : Tid} {i : Nat} {c : Call r.objSize} {a : List Byte} {h : SizeT}
    (hd : (marks m R).drain t = none) (hc : (marks m R).cleared t = none) (hh : m.head = h)
    (hadd : toNat (h + 1) = toNat h + 1) :
    marks { m with head := h + 1 } (Function.update R t (some ⟨i, c, .filling a h 0⟩)) =
      (marks m R).claim t := by
  subst hh
  refine marks_update t _ _ hadd rfl (fun _ => rfl) rfl ?_ ?_
  · show (marks m R).drain = Function.update (marks m R).drain t none
    rw [← hd, Function.update_eq_self]
  · show (marks m R).cleared = Function.update (marks m R).cleared t none
    rw [← hc, Function.update_eq_self]

theorem decide_update_slot (s : Nat → SizeT) (k : Nat) (v : SizeT) (i : Nat) :
    decide (Function.update s k v i = slotValid) =
      Function.update (fun i => decide (s i = slotValid)) k (decide (v = slotValid)) i := by
  by_cases hi : i = k
  · subst hi; simp
  · simp [hi]

theorem marks_mark {t : Tid} {i : Nat} {c : Call r.objSize} {h : SizeT}
    (hd : (marks m R).drain t = none) (hc : (marks m R).cleared t = none) :
    marks { m with slot := Function.update m.slot (toNat (h &&& r.mask)) slotValid }
      (Function.update R t (some ⟨i, c, .pushed h⟩)) =
      (marks m R).mark r.cap t (toNat h) := by
  rw [r.toNat_and_mask]
  refine marks_update t _ _ rfl rfl (fun k => decide_update_slot ..) rfl ?_ ?_
  · show (marks m R).drain = Function.update (marks m R).drain t none
    rw [← hd, Function.update_eq_self]
  · show (marks m R).cleared = Function.update (marks m R).cleared t none
    rw [← hc, Function.update_eq_self]

theorem marks_accept {t : Tid} {i : Nat} {c e : Call r.objSize} {d : SizeT}
    (hf : (marks m R).fill t = none) (hc : (marks m R).cleared t = none)
    (hd : toNat d = toNat m.tail) :
    marks m (Function.update R t (some ⟨i, c, .draining e d []⟩)) = (marks m R).accept t := by
  refine marks_update (m := m) t _ _ rfl rfl (fun _ => rfl) ?_ ?_ ?_
  · show (marks m R).fill = Function.update (marks m R).fill t none
    rw [← hf, Function.update_eq_self]
  · show Function.update (marks m R).drain t (some (toNat m.tail)) =
      Function.update (marks m R).drain t (some (toNat d))
    rw [hd]
  · show (marks m R).cleared = Function.update (marks m R).cleared t none
    rw [← hc, Function.update_eq_self]

theorem marks_clear {t : Tid} {i : Nat} {c e : Call r.objSize} {d : SizeT} {b : List Byte}
    (hf : (marks m R).fill t = none) :
    marks { m with slot := Function.update m.slot (toNat (d &&& r.mask)) slotEmpty }
      (Function.update R t (some ⟨i, c, .cleared e d b⟩)) =
      (marks m R).clear r.cap t (toNat d) := by
  rw [r.toNat_and_mask]
  refine marks_update t _ _ rfl rfl (fun k => decide_update_slot ..) ?_ rfl rfl
  show (marks m R).fill = Function.update (marks m R).fill t none
  rw [← hf, Function.update_eq_self]

theorem marks_advance {t : Tid} {i : Nat} {c e : Call r.objSize} {d : SizeT} {b : List Byte}
    (hf : (marks m R).fill t = none) (hd : (marks m R).drain t = none)
    (hadd : toNat (d + 1) = toNat m.tail + 1) :
    marks { m with tail := d + 1 } (Function.update R t (some ⟨i, c, .popped e d b⟩)) =
      (marks m R).advance t := by
  refine marks_update t _ _ rfl hadd (fun _ => rfl) ?_ ?_ rfl
  · show (marks m R).fill = Function.update (marks m R).fill t none
    rw [← hf, Function.update_eq_self]
  · show (marks m R).drain = Function.update (marks m R).drain t none
    rw [← hd, Function.update_eq_self]

/-! ## Every move keeps the invariant -/

omit [DecidableEq Tid] in
/-- The full test leaves room: the tail it used can only have grown. -/
theorem room_of_not_full {h d : SizeT} (hh : toNat h < 2 ^ 63) (hd : toNat d < 2 ^ 63)
    (hfull : ¬ h - d ≥ r.objNum) : toNat h < toNat d + r.cap := by
  have hcap : r.cap = r.objNum.toNat := rfl
  have hlt : (h - d).toNat < r.cap := BitVec.not_le.1 hfull
  have hle := r.cap_le
  have hh' : h.toNat < 2 ^ 63 := hh
  have hd' : d.toNat < 2 ^ 63 := hd
  rw [BitVec.toNat_sub] at hlt
  show h.toNat < d.toNat + r.cap
  omega

omit [DecidableEq Tid] in
/-- A status word without `SLOT_EMPTY` is `SLOT_VALID`, if it is one of the two. -/
theorem valid_of_not_empty {w : SizeT} (hw : w = slotEmpty ∨ w = slotValid)
    (h : w &&& slotEmpty = 0) : w = slotValid := by
  rcases hw with rfl | rfl
  · cases h
  · rfl

omit [DecidableEq Tid] in
theorem word_update {s : Nat → SizeT} {n k : Nat} {v : SizeT}
    (hs : ∀ i < n, s i = slotEmpty ∨ s i = slotValid) (hv : v = slotEmpty ∨ v = slotValid) :
    ∀ i < n, Function.update s k v i = slotEmpty ∨ Function.update s k v i = slotValid := by
  intro i hi
  by_cases hk : i = k
  · rw [hk, Function.update_self]
    exact hv
  · rw [Function.update_of_ne hk]
    exact hs i hi

theorem slotInv_op {t : Tid} {id : Nat} {c : Call r.objSize} {l l' : Role r.objSize}
    {o : Op SizeT} {x : o.Res} (hb : Bounded (tr ++ [.op t id c o x])) (hk : Known tr R)
    (hi : SlotInv r tr m R) (ht : R t = some ⟨id, c, l⟩) (hm : Trans r l o x l')
    (he : exec t o m = (x, m')) :
    SlotInv r (tr ++ [.op t id c o x]) m' (Function.update R t (some ⟨id, c, l'⟩)) := by
  have hcap := r.two_le_cap
  have hle : toNat m.tail ≤ toNat m.head := hi.inv.tail_le
  have hsmall : toNat m.head < 2 ^ 63 := by
    rw [← hi.head.length]
    exact hb.of_append
  have succ {w : SizeT} (hw : toNat w ≤ toNat m.head) : toNat (w + 1) = toNat w + 1 :=
    hi.toNat_succ hb.of_append hw
  have hof := hk.role t _ ht
  have hknow := hi.knows t _ ht
  have hsf : (marks m R).fill t = l.fill := by simp [marks, ht]
  have hsd : (marks m R).drain t = l.drain := by simp [marks, ht]
  have hsc : (marks m R).cleared t = l.clearing := by simp [marks, ht]
  -- What all moves but the five of the discipline share.
  have same (hpush : takeHead o x = none) (hpop : putTail o x = none) (hh : m'.head = m.head)
      (ht : m'.tail = m.tail) (hs : m'.slot = m.slot) (hf : l'.fill = l.fill)
      (hd : l'.drain = l.drain) (hc : l'.clearing = l.clearing) (hl' : Knows (marks m R) l') :
      SlotInv r (tr ++ [.op t id c o x]) m' (Function.update R t (some ⟨id, c, l'⟩)) :=
    hi.same (claims_snoc_none hpush) (claims_snoc_none hpop) hh ht hs
      (marks_same hh ht hs (hf.trans hsf.symm) (hd.trans hsd.symm) (hc.trans hsc.symm))
      (by rintro _ ⟨⟩; exact hl')
  cases hm with
  | loadHead _ =>
    obtain ⟨rfl, rfl⟩ := Prod.mk.inj he
    exact same rfl rfl rfl rfl rfl rfl rfl rfl le_rfl
  | loadTail =>
    obtain ⟨rfl, rfl⟩ := Prod.mk.inj he
    exact same rfl rfl rfl rfl rfl rfl rfl rfl ⟨hknow, le_rfl⟩
  | @claimHead args h d hfull =>
    obtain ⟨hh, rfl⟩ := exec_casHead he
    have hd : toNat d ≤ toNat m.tail := hknow.2
    have hroom : toNat h < toNat d + r.cap :=
      room_of_not_full (hh ▸ hsmall) (by omega) hfull
    have hadd : toNat (h + 1) = toNat h + 1 := succ (hh ▸ le_rfl)
    have habs := marks_claim (i := id) (c := c) (a := args) hsd hsc hh hadd
    have hlt : toNat m.head < toNat m.tail + r.cap := by rw [hh]; omega
    have hnum : Numbered toNat (pushClaims tr) (toNat h) := hh ▸ hi.head
    exact ⟨hadd ▸ hnum.op_some rfl rfl, hi.tail.op_none rfl, hi.word,
      habs ▸ hi.inv.claim hsf hlt,
      habs ▸ knows_update hi (fun _ _ _ _ => .claim) (by rintro _ ⟨⟩; trivial)⟩
  | missHead =>
    obtain rfl := exec_casHead_false he
    exact same rfl rfl rfl rfl rfl rfl rfl rfl trivial
  | copyIn _ =>
    obtain ⟨-, rfl⟩ := Prod.mk.inj he
    exact same rfl rfl rfl rfl rfl rfl rfl rfl trivial
  | @publish args h =>
    obtain ⟨-, rfl⟩ := Prod.mk.inj he
    have habs := marks_mark (i := id) (c := c) (h := h) hsd hsc
    exact ⟨hi.head.op_none rfl, hi.tail.op_none rfl, word_update hi.word (.inr rfl),
      habs ▸ hi.inv.mark hsf,
      habs ▸ knows_update hi (fun _ _ _ _ h => h) (by rintro _ ⟨⟩; trivial)⟩
  | others _ =>
    obtain ⟨-, rfl⟩ := Prod.mk.inj he
    exact same rfl rfl rfl rfl rfl rfl rfl rfl trivial
  | popTail _ _ =>
    obtain ⟨rfl, rfl⟩ := Prod.mk.inj he
    exact same rfl rfl rfl rfl rfl rfl rfl rfl rfl
  | cacheEmpty =>
    obtain ⟨-, rfl⟩ := Prod.mk.inj he
    exact same rfl rfl rfl rfl rfl rfl rfl rfl hknow
  | cacheSome _ =>
    obtain ⟨-, rfl⟩ := Prod.mk.inj he
    exact same rfl rfl rfl rfl rfl rfl rfl rfl hknow
  | popHead =>
    obtain ⟨-, rfl⟩ := Prod.mk.inj he
    exact same rfl rfl rfl rfl rfl rfl rfl rfl hknow
  | setEmpty =>
    obtain ⟨-, rfl⟩ := Prod.mk.inj he
    exact same rfl rfl rfl rfl rfl rfl rfl rfl trivial
  | setSome _ =>
    obtain ⟨-, rfl⟩ := Prod.mk.inj he
    exact same rfl rfl rfl rfl rfl rfl rfl rfl hknow
  | refuse _ =>
    obtain ⟨-, rfl⟩ := Prod.mk.inj he
    exact same rfl rfl rfl rfl rfl rfl rfl rfl trivial
  | @accept c' d st hst =>
    obtain ⟨rfl, rfl⟩ := Prod.mk.inj he
    have hd : toNat d = toNat m.tail := hknow
    have habs := marks_accept (i := id) (c := c) (e := c') hsf hsc hd
    have hvalid : (marks m R).valid ((marks m R).tail % r.cap) = true := by
      have hword := hi.word _ (r.index_lt (toNat d))
      rw [r.toNat_and_mask] at hst
      have hv := valid_of_not_empty hword hst
      show decide (m.slot (r.index (toNat m.tail)) = slotValid) = true
      rw [← hd, hv]
      rfl
    exact ⟨hi.head.op_none rfl, hi.tail.op_none rfl, hi.word,
      habs ▸ hi.inv.accept (by omega) hvalid,
      habs ▸ knows_update hi (fun _ _ _ _ h => h) (by rintro _ ⟨⟩; trivial)⟩
  | copyOut _ _ =>
    obtain ⟨-, rfl⟩ := Prod.mk.inj he
    exact same rfl rfl rfl rfl rfl rfl rfl rfl trivial
  | enterCb =>
    obtain ⟨-, rfl⟩ := Prod.mk.inj he
    exact same rfl rfl rfl rfl rfl rfl rfl rfl trivial
  | readCb _ =>
    obtain ⟨-, rfl⟩ := Prod.mk.inj he
    exact same rfl rfl rfl rfl rfl rfl rfl rfl trivial
  | @clear c' d bs _ =>
    obtain ⟨-, rfl⟩ := Prod.mk.inj he
    have habs := marks_clear (i := id) (c := c) (e := c') (b := bs) (d := d) hsf
    exact ⟨hi.head.op_none rfl, hi.tail.op_none rfl, word_update hi.word (.inl rfl),
      habs ▸ hi.inv.clear hsd (hk.only_consumer ht hof.2),
      habs ▸ knows_update hi (fun _ _ _ _ h => h) (by rintro _ ⟨⟩; trivial)⟩
  | @advance c' d bs =>
    obtain ⟨-, rfl⟩ := Prod.mk.inj he
    have hd : toNat d = toNat m.tail := (hi.inv.cleared t _ hsc).1
    have hadd : toNat (d + 1) = toNat m.tail + 1 := by rw [succ (hd ▸ hle), hd]
    have habs := marks_advance (i := id) (c := c) (e := c') (b := bs) hsf hsd hadd
    refine ⟨hi.head.op_none rfl, ?_, hi.word,
      habs ▸ hi.inv.advance hsc (hk.only_consumer ht hof.2.1) hsd,
      habs ▸ knows_update hi (fun u a hu ha h => ?_) (by rintro _ ⟨⟩; trivial)⟩
    · show Numbered toNat _ (toNat (d + 1))
      rw [hadd]
      refine hi.tail.op_some rfl ?_
      rw [BitVec.add_sub_cancel, hd]
    · have hpops : a.call.pops ≠ true := fun h => hu (hk.one u t a _ ha ht h hof.2.1)
      exact h.advance (hk.role u a ha) hpops

/-- Memory as `get_buf` leaves it for an Mpsc ring. -/
structure Fresh (r : Ring SizeT) (m : Mem SizeT Tid) : Prop where
  head : m.head = 0
  tail : m.tail = 0
  slot : ∀ i < r.cap, m.slot i = slotEmpty

omit [DecidableEq Tid] in
theorem Fresh.slotInv {m₀ : Mem SizeT Tid} (hf : Fresh r m₀) : SlotInv r [] m₀ fun _ => none := by
  have hh : toNat m₀.head = 0 := congrArg toNat hf.head
  have ht : toNat m₀.tail = 0 := congrArg toNat hf.tail
  have hcap := r.two_le_cap
  refine ⟨hh ▸ .nil, ht ▸ .nil, fun i hi => .inl (hf.slot i hi), Marks.inv_init (fun i hi => ?_)
    (by omega) hh ht (by simp [marks]) (by simp [marks]) (by simp [marks]), by simp⟩
  show decide (m₀.slot i = slotValid) = false
  rw [hf.slot i hi]
  rfl

theorem free_of_final {l : Role r.objSize} {v : Ret} (h : (proto r).final l v) :
    l.fill = none ∧ l.drain = none ∧ l.clearing = none := by
  cases l with
  | filling => exact h.elim
  | draining => exact h.elim
  | cleared => exact h.elim
  | _ => exact ⟨rfl, rfl, rfl⟩

/-- **The slot invariant** holds along every run of fewer than `2 ^ 63` pushes. -/
theorem slotInv_inductive {m₀ : Mem SizeT Tid} (hf : Fresh r m₀) :
    InductiveUnder (proto r) (sys r Tid) m₀ (fun tr _ R => Known tr R)
      fun tr m R => Bounded tr → SlotInv r tr m R := by
  refine InductiveUnder.guard (B := Bounded) (fun _ _ h => h.of_append) ?_
  refine ⟨fun _ => hf.slotInv, fun _ _ hi ht _ _ => ?_, fun _ hA hi ht hm he hA' => ?_,
    fun _ _ hi ht hfin _ => ?_, fun _ _ he => he.elim⟩
  · refine hi.same claims_snoc_call claims_snoc_call rfl rfl rfl (marks_same rfl rfl rfl ?_ ?_ ?_)
      (by rintro _ ⟨⟩; trivial) <;> simp [marks, ht, proto] <;> rfl
  · exact slotInv_op hA'.1 hA.2 hi ht hm he
  · obtain ⟨hfill, hdrain, hclear⟩ := free_of_final hfin
    refine hi.same claims_snoc_ret claims_snoc_ret rfl rfl rfl (marks_same rfl rfl rfl ?_ ?_ ?_)
      (by simp) <;> simp [marks, ht, hfill, hdrain, hclear]

end Mpsc

end RingBuf
