import RingBuf.Conc.Product
import RingBuf.Mpsc.Fifo

/-!
# A consumer with one ring

`local_head` belongs to the thread, not to the ring. When one thread is the only consumer of a
ring and uses no other one, the value it finds there is a head that this ring has had, and no
smaller than the tail (`cached_inductive`).
-/

namespace RingBuf

open Conc Word

namespace Mpsc

variable {Tid : Type} {r : Ring SizeT}

/-- What the thread did with other rings before the call. -/
def Call.others {n : Nat} : Call n → Option SizeT
  | .push _ => none
  | .pop others _ | .popWCb others _ => others

/-- All pops are calls of `t₀`, which uses no other ring. -/
def Own {n : Nat} (t₀ : Tid) (tr : List (Ev Tid n)) : Prop :=
  ∀ t id c, .call t id c ∈ tr → c.pops = true → t = t₀ ∧ c.others = none

theorem Own.of_append {n : Nat} {t₀ : Tid} {tr tr' : List (Ev Tid n)} (h : Own t₀ (tr ++ tr')) :
    Own t₀ tr :=
  fun t id c hc => h t id c (List.mem_append_left _ hc)

/-! ## Only other rings touch `local_head` before the call -/

/-- Whether a call has loaded `tail_`. Before, it stores to `local_head` only what other rings
have left there. -/
def guest (n : Nat) : Proto (Op SizeT) Op.Res Empty (Call n) Ret (Call n × Bool) where
  start c := (c, false)
  trans
    | l, .setLocalHead v, _, l' => l' = l ∧ (l.2 = false → l.1.others = some v)
    | l, .loadTail, _, l' => l' = (l.1, true)
    | l, _, _, l' => l' = l
  final _ _ := True
  entry _ _ := False

/-- After the load of `tail_` everything goes. -/
theorem guest_wp {n : Nat} {α : Type} {p : RingProg SizeT α} {Q : Call n × Bool → α → Prop}
    {c : Call n} (hQ : ∀ l a, Q l a) : (guest n).wp p Q (c, true) := by
  induction p with
  | ret a => exact hQ _ a
  | op o k ih =>
    intro x
    refine ⟨(c, true), ?_, ih x⟩
    cases o with
    | setLocalHead v => exact ⟨rfl, fun h => nomatch h⟩
    | _ => rfl
  | jump j => exact j.elim

theorem guest_otherRings {n : Nat} {c : Call n} {Q : Call n × Bool → Unit → Prop}
    (hQ : Q (c, false) ()) : (guest n).wp (otherRings c.others) Q (c, false) := by
  cases h : c.others with
  | none => exact hQ
  | some v => exact fun _ => ⟨(c, false), ⟨rfl, fun _ => h⟩, hQ⟩

theorem guest_follows (r : Ring SizeT) (Tid : Type) [DecidableEq Tid] :
    (guest r.objSize).Follows (sys r Tid) where
  body
    | .push args => by
      refine Proto.wp_bind ?_
      unfold pushMpscRingBuf
      split
      · trivial
      · exact fun _ => ⟨_, rfl, fun _ => ⟨_, rfl, guest_wp fun _ _ => trivial⟩⟩
    | .pop others size => by
      refine Proto.wp_bind (guest_otherRings (c := .pop others size) (Proto.wp_bind ?_))
      unfold popMpscRingBuf
      split
      · trivial
      · exact fun _ => ⟨_, rfl, guest_wp fun _ _ => trivial⟩
    | .popWCb others cb => by
      refine Proto.wp_bind (guest_otherRings (c := .popWCb others cb) (Proto.wp_bind ?_))
      exact fun _ => ⟨_, rfl, guest_wp fun _ _ => trivial⟩
  code l := l.elim

/-! ## The cached head -/

/-- Where the cached head of `t₀` stands during a pop. -/
def Ahead {n : Nat} (t₀ : Tid) (m : Mem SizeT Tid) : Role n → Prop
  | .popHead _ _ h => toNat m.tail ≤ toNat h ∧ toNat h ≤ toNat m.head
  | .popSlot _ _ | .draining _ _ _ | .cleared _ _ _ => toNat m.tail < toNat (m.localHead t₀)
  | _ => True

/-- The cached head is a head that the ring has had, and the tail has not passed it. -/
structure Cached {n : Nat} (t₀ : Tid) (m : Mem SizeT Tid) (R : MRoles Tid n) : Prop where
  tail_le : toNat m.tail ≤ toNat (m.localHead t₀)
  le_head : toNat (m.localHead t₀) ≤ toNat m.head
  ahead : ∀ t a, R t = some a → Ahead t₀ m a.role

variable {tr tr' : List (Ev Tid r.objSize)} {m m' : Mem SizeT Tid} {R : MRoles Tid r.objSize}
  {t₀ : Tid}

theorem Ahead.congr {n : Nat} {l : Role n} (h : Ahead t₀ m l) (hh : toNat m.head ≤ toNat m'.head)
    (ht : m'.tail = m.tail) (hl : m'.localHead t₀ = m.localHead t₀) : Ahead t₀ m' l := by
  cases l with
  | popHead c d x =>
    refine ⟨?_, Nat.le_trans h.2 hh⟩
    rw [ht]
    exact h.1
  | popSlot c d =>
    show toNat m'.tail < toNat (m'.localHead t₀)
    rw [ht, hl]
    exact h
  | draining c d bs =>
    show toNat m'.tail < toNat (m'.localHead t₀)
    rw [ht, hl]
    exact h
  | cleared c d bs =>
    show toNat m'.tail < toNat (m'.localHead t₀)
    rw [ht, hl]
    exact h
  | _ => trivial

theorem Ahead.of_push {n : Nat} {c : Call n} {l : Role n} (hof : l.Of c) (hc : c.pops ≠ true) :
    Ahead t₀ m l := by
  cases l with
  | popHead => exact absurd hof.2 hc
  | popSlot => exact absurd hof.2 hc
  | draining => exact absurd hof.2 hc
  | cleared => exact absurd hof.2.1 hc
  | _ => trivial

variable [DecidableEq Tid]

theorem Cached.same {t : Tid} {y : Option (Active (Call r.objSize) (Role r.objSize))}
    (hi : Cached t₀ m R) (hh : toNat m.head ≤ toNat m'.head) (ht : m'.tail = m.tail)
    (hl : m'.localHead t₀ = m.localHead t₀) (hy : ∀ b, y = some b → Ahead t₀ m b.role) :
    Cached t₀ m' (Function.update R t y) where
  tail_le := by
    rw [ht, hl]
    exact hi.tail_le
  le_head := by
    rw [hl]
    exact Nat.le_trans hi.le_head hh
  ahead u a hu := by
    rcases update_some_iff.1 hu with ⟨-, hy'⟩ | ⟨-, hu⟩
    · exact (hy a hy').congr hh ht hl
    · exact (hi.ahead u a hu).congr hh ht hl

/-- A move of the consumer: only its own role looks at the tail and the cached head. -/
theorem Cached.consume {t : Tid} {id : Nat} {c : Call r.objSize} {l l' : Role r.objSize}
    (hk : Known tr R) (ht : R t = some ⟨id, c, l⟩) (hc : c.pops = true)
    (hle : toNat m'.tail ≤ toNat (m'.localHead t₀)) (hle' : toNat (m'.localHead t₀) ≤ toNat m'.head)
    (hl' : Ahead t₀ m' l') : Cached t₀ m' (Function.update R t (some ⟨id, c, l'⟩)) where
  tail_le := hle
  le_head := hle'
  ahead u a hu := by
    rcases update_some_iff.1 hu with ⟨-, hy⟩ | ⟨hne, hu⟩
    · obtain rfl := Option.some.inj hy
      exact hl'
    · exact .of_push (hk.role u a hu) fun h => hne (hk.one u t a _ hu ht h hc)

theorem cached_op {t : Tid} {id : Nat} {c : Call r.objSize} {l l' : Role r.objSize}
    {o : Op SizeT} {x : o.Res} (hb : Bounded tr) (hk : Known tr R) (hs : SlotInv r tr m R)
    (hi : Cached t₀ m R) (ht : R t = some ⟨id, c, l⟩) (hown : c.pops = true → t = t₀)
    (hguest : ∀ c' v, l = .start c' → o ≠ .setLocalHead v) (hm : Trans r l o x l')
    (he : exec t o m = (x, m')) : Cached t₀ m' (Function.update R t (some ⟨id, c, l'⟩)) := by
  have hof := hk.role t _ ht
  have hknow := hs.knows t _ ht
  have hahead := hi.ahead t _ ht
  have hle : toNat m.tail ≤ toNat m.head := hs.inv.tail_le
  -- What most moves share.
  have same (hh : m'.head = m.head) (ht : m'.tail = m.tail) (hl : m'.localHead = m.localHead)
      (hl' : Ahead t₀ m l') : Cached t₀ m' (Function.update R t (some ⟨id, c, l'⟩)) :=
    hi.same (by rw [hh]) ht (by rw [hl]) (by rintro _ ⟨⟩; exact hl')
  cases hm with
  | loadHead _ =>
    obtain ⟨rfl, rfl⟩ := Prod.mk.inj he
    exact same rfl rfl rfl trivial
  | loadTail =>
    obtain ⟨rfl, rfl⟩ := Prod.mk.inj he
    exact same rfl rfl rfl trivial
  | @claimHead args h d _ =>
    obtain ⟨hh, rfl⟩ := exec_casHead he
    refine hi.same ?_ rfl rfl (by rintro _ ⟨⟩; trivial)
    show toNat m.head ≤ toNat (h + 1)
    rw [← hh, hs.toNat_succ hb (Nat.le_refl _)]
    exact Nat.le_succ _
  | missHead =>
    obtain rfl := exec_casHead_false he
    exact same rfl rfl rfl trivial
  | copyIn _ =>
    obtain ⟨-, rfl⟩ := Prod.mk.inj he
    exact same rfl rfl rfl trivial
  | publish =>
    obtain ⟨-, rfl⟩ := Prod.mk.inj he
    exact same rfl rfl rfl trivial
  | others _ => exact absurd rfl (hguest _ _ rfl)
  | popTail _ _ =>
    obtain ⟨rfl, rfl⟩ := Prod.mk.inj he
    exact same rfl rfl rfl trivial
  | cacheEmpty =>
    obtain ⟨-, rfl⟩ := Prod.mk.inj he
    exact same rfl rfl rfl trivial
  | @cacheSome c' d h hne =>
    obtain ⟨rfl, rfl⟩ := Prod.mk.inj he
    obtain rfl := hown hof.2
    have hd : toNat d = toNat m.tail := hknow
    refine same rfl rfl rfl (Nat.lt_of_le_of_ne hi.tail_le fun h => hne ?_)
    exact BitVec.eq_of_toNat_eq (h.symm.trans hd.symm)
  | popHead =>
    obtain ⟨rfl, rfl⟩ := Prod.mk.inj he
    exact same rfl rfl rfl ⟨hle, Nat.le_refl _⟩
  | @setEmpty c' d =>
    obtain ⟨-, rfl⟩ := Prod.mk.inj he
    obtain rfl := hown hof.2
    refine .consume hk ht hof.2 ?_ ?_ trivial
    · show toNat m.tail ≤ toNat (Function.update m.localHead t d t)
      rw [Function.update_self]
      exact hahead.1
    · show toNat (Function.update m.localHead t d t) ≤ toNat m.head
      rw [Function.update_self]
      exact hahead.2
  | @setSome c' d h hne =>
    obtain ⟨-, rfl⟩ := Prod.mk.inj he
    obtain rfl := hown hof.2
    have hd : toNat d = toNat m.tail := hknow
    have hself : Function.update m.localHead t h t = h := Function.update_self ..
    refine .consume hk ht hof.2 ?_ ?_ ?_
    · show toNat m.tail ≤ toNat (Function.update m.localHead t h t)
      rw [hself]
      exact hahead.1
    · show toNat (Function.update m.localHead t h t) ≤ toNat m.head
      rw [hself]
      exact hahead.2
    · show toNat m.tail < toNat (Function.update m.localHead t h t)
      rw [hself]
      refine Nat.lt_of_le_of_ne hahead.1 fun h => hne ?_
      exact BitVec.eq_of_toNat_eq (h.symm.trans hd.symm)
  | refuse _ =>
    obtain ⟨-, rfl⟩ := Prod.mk.inj he
    exact same rfl rfl rfl trivial
  | accept _ =>
    obtain ⟨-, rfl⟩ := Prod.mk.inj he
    exact same rfl rfl rfl hahead
  | copyOut _ _ =>
    obtain ⟨-, rfl⟩ := Prod.mk.inj he
    exact same rfl rfl rfl hahead
  | enterCb =>
    obtain ⟨-, rfl⟩ := Prod.mk.inj he
    exact same rfl rfl rfl hahead
  | readCb _ =>
    obtain ⟨-, rfl⟩ := Prod.mk.inj he
    exact same rfl rfl rfl hahead
  | clear _ =>
    obtain ⟨-, rfl⟩ := Prod.mk.inj he
    exact same rfl rfl rfl hahead
  | @advance c' d bs =>
    obtain ⟨-, rfl⟩ := Prod.mk.inj he
    have hd : toNat d = toNat m.tail := (hs.inv.cleared t _ (cleared_of_cleared ht)).1
    refine .consume hk ht hof.2.1 ?_ hi.le_head trivial
    show toNat (d + 1) ≤ toNat (m.localHead t₀)
    rw [hs.toNat_succ hb (by rw [hd]; exact hle), hd]
    exact hahead

/-! ## In every run -/

/-- The roles of the threads with what they have seen of the tail. -/
abbrev GRoles (Tid : Type) (n : Nat) := Roles Tid (Call n) (Role n × (Call n × Bool))

/-- The protocol of the ring, with the stores of other rings told apart. -/
abbrev guestProto (r : Ring SizeT) := (proto r).prod (guest r.objSize)

theorem guest_start {m₀ : Mem SizeT Tid}
    {A : List (Ev Tid r.objSize) → Mem SizeT Tid → GRoles Tid r.objSize → Prop} :
    InductiveUnder (guestProto r) (sys r Tid) m₀ A fun _ _ R =>
      ∀ t a, R t = some a → ∀ c, a.role.1 = .start c → a.role.2 = (c, false) := by
  refine roles_inductive (fun _ (l : Role r.objSize × (Call r.objSize × Bool)) =>
    ∀ c, l.1 = .start c → l.2 = (c, false)) ?_ ?_
  · intro a c hc
    cases hc
    rfl
  · intro a l o x l' hm hl c hc
    obtain ⟨l₁, l₂⟩ := l
    obtain ⟨l₁', l₂'⟩ := l'
    obtain ⟨hmove, hguest⟩ := hm
    obtain rfl : l₁' = .start c := hc
    cases hmove with
    | others _ =>
      obtain rfl : l₂' = l₂ := hguest.1
      exact hl c rfl

/-- What is known of a state: of its history, of the slots, of the calls in progress. -/
structure Guested (r : Ring SizeT) (tr : List (Ev Tid r.objSize)) (m : Mem SizeT Tid)
    (R : GRoles Tid r.objSize) : Prop where
  known : Known tr R.fst
  slots : Bounded tr → SlotInv r tr m R.fst
  called : ∀ t a, R t = some a → .call t a.id a.call ∈ tr
  start : ∀ t a, R t = some a → ∀ c, a.role.1 = .start c → a.role.2 = (c, false)

theorem guested_inductive {m₀ : Mem SizeT Tid} (hf : Fresh r m₀) :
    Inductive (guestProto r) (sys r Tid) m₀ fun tr m R => Guested r tr m R := by
  have hslots : Inductive (guestProto r) (sys r Tid) m₀ _ :=
    (known_inductive.and (slotInv_inductive hf)).prod
  refine (hslots.both (called_inductive.both guest_start)).congr fun tr m R => ?_
  exact ⟨fun h => ⟨h.1.1, h.1.2, h.2.1, h.2.2⟩, fun h => ⟨⟨h.known, h.slots⟩, h.called, h.start⟩⟩

/-- **The cached head of a consumer with one ring** is a head that the ring has had, and the tail
has not passed it. -/
theorem cached_inductive {m₀ : Mem SizeT Tid} (hf : Fresh r m₀) (hlocal : m₀.localHead t₀ = 0) :
    InductiveUnder (guestProto r) (sys r Tid) m₀ (fun tr m R => Guested r tr m R)
      fun tr m R => Bounded tr ∧ Own t₀ tr → Cached t₀ m R.fst := by
  refine InductiveUnder.guard (B := fun tr => Bounded tr ∧ Own t₀ tr)
    (fun _ _ h => ⟨h.1.of_append, h.2.of_append⟩) ?_
  refine ⟨fun _ => ?_, fun _ _ hi _ _ _ => ?_, ?_, fun _ _ hi _ _ _ => ?_, fun _ _ he => he.elim⟩
  · refine ⟨?_, ?_, ?_⟩
    · rw [hf.tail, hlocal]
    · rw [hf.head, hlocal]
    · intro t a ha
      cases ha
  · rw [Roles.fst_update]
    refine hi.same le_rfl rfl rfl ?_
    intro b hb
    obtain rfl := Option.some.inj hb
    trivial
  · intro n tr m R t id c l o x l' m' _ hA hi ht hm he hA'
    have hfst := Roles.fst_some ht
    rw [Roles.fst_update]
    have hcall : .call t id c ∈ tr := hA.2.called t _ ht
    have hof : l.1.Of c := hA.2.known.role t _ hfst
    refine cached_op hA.1.1 hA.2.known (hA.2.slots hA.1.1) hi hfst
      (fun hc => (hA.1.2 t id c hcall hc).1) ?_ hm.1 he
    -- A store of another ring would be one that the call announces.
    intro c' v hl ho
    obtain ⟨l₁, l₂⟩ := l
    obtain ⟨l₁', l₂'⟩ := l'
    obtain rfl : l₁ = .start c' := hl
    obtain rfl : c' = c := hof
    obtain rfl : l₂ = (c', false) := hA.2.start t _ ht c' rfl
    subst ho
    obtain ⟨hmove, hguest⟩ := hm
    cases hmove with
    | others hpops =>
      have hsome : c'.others = some v := hguest.2 rfl
      rw [(hA.1.2 t id c' hcall hpops).2] at hsome
      cases hsome
  · rw [Roles.fst_update]
    refine hi.same le_rfl rfl rfl ?_
    intro b hb
    cases hb

end Mpsc

end RingBuf
