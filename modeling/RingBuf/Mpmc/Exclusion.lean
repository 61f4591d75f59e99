import RingBuf.Mpmc.Fifo

/-!
# Mpmc slots are accessed under mutual exclusion

A call owns a slot from the compare-exchange that takes a position of it to the store of its
slot word (`Owns`). Two calls never own one slot at the same time, only an owner touches a
slot, and no slot word ever decreases (`mpmc_exclusion`).
-/

namespace RingBuf

open Conc Word LawfulWord

namespace Mpmc

variable {W Tid : Type} [Word W]

/-- The position a successful compare-exchange takes, on either counter. -/
def takeSlot : (o : Op W) → o.Res → Option W
  | .casHead e _, true | .casTail e _, true => some e
  | _, _ => none

/-- Call `id` of thread `t` is between its compare-exchange for position `p` and the following
store of the slot word. -/
def Owns {n : Nat} (tr : List (Ev W Tid n)) (t : Tid) (id : Nat) (p : W) : Prop :=
  Holds takeSlot dropSlot tr t id p

/-- The position whose slot the call owns. -/
def Role.owned {n : Nat} : Role W n → Option W
  | .filling _ p _ | .draining _ p _ => some p
  | _ => none

variable {r : Ring W} {tr tr₁ tr₂ : List (Ev W Tid r.objSize)} {m m' : Mem W Tid}
  {R : MRoles Tid W r.objSize} {t u : Tid} {id : Nat} {c : Call r.objSize}
  {l l' : Role W r.objSize} {p q : W}

theorem slots_of_owned {a : Active (Call r.objSize) (Role W r.objSize)} (ht : R t = some a)
    (hp : a.role.owned = some p) :
    (slots m R).fill t = some (toNat p) ∨ (slots m R).drain t = some (toNat p) := by
  obtain ⟨id, c, l⟩ := a
  cases l with
  | filling args h j =>
    obtain rfl : h = p := Option.some.inj hp
    exact .inl (fill_of_filling ht)
  | draining c' d bs =>
    obtain rfl : d = p := Option.some.inj hp
    exact .inr (drain_of_draining ht)
  | _ => cases hp

variable [DecidableEq Tid]

/-- The history and the roles agree on who owns what. -/
theorem owns_inductive {m₀ : Mem W Tid} :
    Inductive (proto r) (sys r Tid) m₀ fun tr _ R =>
      ∀ t id p, Owns tr t id p ↔ ∃ a, R t = some a ∧ a.id = id ∧ a.role.owned = some p := by
  refine held_inductive takeSlot dropSlot Role.owned (fun _ => rfl) (fun hm ho => ?_)
    (fun hm ho hd => ?_) (fun hm ho hd => ?_) fun {l v} hf => ?_
  · cases hm <;> cases ho <;> exact ⟨rfl, rfl⟩
  · cases hm <;> cases hd <;> rfl
  · cases hm <;> first | rfl | (cases ho; done) | cases hd
  · cases l <;> first | rfl | exact hf.elim

/-- Who owns what, in the terms of a state. -/
structure Owners (r : Ring W) (tr : List (Ev W Tid r.objSize)) (m : Mem W Tid)
    (R : MRoles Tid W r.objSize) : Prop where
  known : Known tr R
  slots : SlotInv r tr m R
  owns : ∀ t id p, Owns tr t id p ↔ ∃ a, R t = some a ∧ a.id = id ∧ a.role.owned = some p

namespace Owners

omit [DecidableEq Tid]

theorem of_role (h : Owners r tr m R) (ht : R t = some ⟨id, c, l⟩) (hp : l.owned = some p) :
    Owns tr t id p :=
  (h.owns t id p).2 ⟨_, ht, rfl, hp⟩

theorem unique {j : Nat} (h : Owners r tr m R) (ht : Owns tr t id p) (hu : Owns tr u j q)
    (hi : r.index (toNat p) = r.index (toNat q)) : t = u ∧ id = j ∧ toNat p = toNat q := by
  obtain ⟨a, ha, rfl, hp⟩ := (h.owns t id p).1 ht
  obtain ⟨b, hb, rfl, hq⟩ := (h.owns u j q).1 hu
  obtain ⟨rfl, hpq⟩ := h.slots.inv.exclusive (slots_of_owned ha hp) (slots_of_owned hb hq) hi
  obtain rfl : a = b := Option.some.inj (ha.symm.trans hb)
  exact ⟨rfl, rfl, hpq⟩

variable [LawfulWord W]

theorem write {a : Nat} {b : Byte} (h : Owners r tr m R) (ht : R t = some ⟨id, c, l⟩)
    (hm : Trans r l (.writeByte a b) () l') :
    ∃ p j, Owns tr t id p ∧ j < r.objSize ∧ a = r.base (toNat p) + j := by
  cases hm with
  | @copyIn args p j _ hb =>
    have hof : c = .push args ∧ args.length ≤ r.objSize := h.known.role t _ ht
    have hj : j < args.length := (List.getElem?_eq_some_iff.1 hb).1
    exact ⟨p, j, h.of_role ht rfl, Nat.lt_of_lt_of_le hj hof.2, by rw [r.addr_and_mask]⟩

theorem read {a : Nat} {b : Byte} (h : Owners r tr m R) (ht : R t = some ⟨id, c, l⟩)
    (hm : Trans r l (.readByte a) b l') :
    ∃ p j, Owns tr t id p ∧ j < r.objSize ∧ a = r.base (toNat p) + j := by
  cases hm with
  | @copyOut size d bs _ hlt hsize =>
    exact ⟨d, bs.length, h.of_role ht rfl, Nat.lt_of_lt_of_le hlt hsize, by rw [r.addr_and_mask]⟩
  | @readCb cb d bs _ j hj => exact ⟨d, j, h.of_role ht rfl, hj, by rw [r.addr_and_mask]⟩

theorem store {i v : W} (h : Owners r tr m R) (ht : R t = some ⟨id, c, l⟩)
    (hm : Trans r l (.storeSlot i v) () l') :
    ∃ p, Owns tr t id p ∧ toNat i = r.index (toNat p) := by
  cases hm with
  | @publish args p => exact ⟨p, h.of_role ht rfl, r.toNat_and_mask p⟩
  | @release c' d bs _ => exact ⟨d, h.of_role ht rfl, r.toNat_and_mask d⟩

end Owners

/-! ## Slot words only grow -/

variable [LawfulWord W]

/-- The two stores of a slot word, and nothing else, change it, to a larger number. -/
theorem slot_le_of_move {o : Op W} {x : o.Res} {e : Ev W Tid r.objSize}
    (hb : NoOverflow r (tr ++ [e])) (hs : SlotInv r tr m R) (ht : R t = some ⟨id, c, l⟩)
    (hm : Trans r l o x l') (he : exec t o m = (x, m')) (i : Nat) :
    toNat (m.slot i) ≤ toNat (m'.slot i) := by
  have hcap := r.two_le_cap
  have hbig : Fits W (toNat m.head + r.cap) := hb.fits hs
  have store {v : W} {k : Nat} (hle : toNat (m.slot k) ≤ toNat v) :
      toNat (m.slot i) ≤ toNat (Function.update m.slot k v i) := by
    by_cases hi : i = k
    · subst hi
      rwa [Function.update_self]
    · rw [Function.update_of_ne hi]
  cases hm with
  | @publish args p =>
    obtain ⟨-, rfl⟩ := Prod.mk.inj he
    refine store ?_
    obtain ⟨-, hlt, hseq⟩ := hs.inv.fill t _ (fill_of_filling ht)
    have hseq' : toNat (m.slot (r.index (toNat p))) = toNat p := hseq
    have hlt' : toNat p < toNat m.head := hlt
    rw [r.toNat_and_mask, hseq', toNat_succ hlt'.le (Nat.le_of_succ_le hcap) hbig]
    exact Nat.le_succ _
  | @release c' d bs _ =>
    obtain ⟨-, rfl⟩ := Prod.mk.inj he
    refine store ?_
    obtain ⟨hlt, -, hseq⟩ := hs.inv.drain t _ (drain_of_draining ht)
    have hseq' : toNat (m.slot (r.index (toNat d))) = toNat d + 1 := hseq
    have hlt' : toNat d < toNat m.tail := hlt
    have hle : toNat m.tail ≤ toNat m.head := hs.inv.tail_le
    rw [r.toNat_and_mask, hseq', toNat_add (fits_mono (by show toNat d + r.cap ≤ _; omega) hbig)]
    exact Nat.add_le_add_left (Nat.le_of_succ_le hcap) _
  | claimHead _ =>
    obtain ⟨-, rfl⟩ := exec_casHead he
    exact le_rfl
  | missHead =>
    obtain rfl := exec_casHead_false he
    exact le_rfl
  | claimTail _ =>
    obtain ⟨-, rfl⟩ := exec_casTail he
    exact le_rfl
  | missTail =>
    obtain rfl := exec_casTail_false he
    exact le_rfl
  | _ =>
    obtain ⟨-, rfl⟩ := Prod.mk.inj he
    exact le_rfl

variable {m₀ : Mem W Tid} {c₁ c₂ : Config (Op W) Op.Res Empty Tid (Call r.objSize) Ret (Mem W Tid)}

theorem slot_le_of_step {e : Option (Ev W Tid r.objSize)} (hf : Fresh r m₀)
    (h : Run (sys r Tid) (.start m₀) tr c₁) (hs : Step (sys r Tid) c₁ e c₂)
    (hb : NoOverflow r (tr ++ e.toList)) (i : Nat) :
    toNat (c₁.shared.slot i) ≤ toNat (c₂.shared.slot i) := by
  obtain ⟨R, hF, hi⟩ := inv_run hf h hb.of_append
  cases hs with
  | @op t id a o k x s' ht he =>
    obtain ⟨l, hR, hw⟩ := (ht ▸ hF t : Follow _ (.run id a (.op o k)) (R t)).run
    obtain ⟨l', hm, -⟩ := hw x
    exact slot_le_of_move hb hi.slots hR hm he i
  | env he => exact he.elim
  | _ => exact le_rfl

/-- **No slot word decreases** from one state of a run to a later one. -/
theorem slot_le_of_run (hf : Fresh r m₀) (h₁ : Run (sys r Tid) (.start m₀) tr₁ c₁)
    (h₂ : Run (sys r Tid) c₁ tr₂ c₂) (hb : NoOverflow r (tr₁ ++ tr₂)) (i : Nat) :
    toNat (c₁.shared.slot i) ≤ toNat (c₂.shared.slot i) := by
  induction h₂ with
  | refl => exact le_rfl
  | tail hr hs ih =>
    rw [← List.append_assoc] at hb
    exact (ih hb.of_append).trans (slot_le_of_step hf (h₁.trans hr) hs hb i)

/-! ## Every run -/

/-- In the history `tr`, slots are accessed under mutual exclusion. -/
structure Exclusive (r : Ring SizeT) (tr : List (Ev SizeT Tid r.objSize)) : Prop where
  /-- A slot has at most one owner. -/
  unique : ∀ {t u id j p q}, Owns tr t id p → Owns tr u j q →
    r.index (toNat p) = r.index (toNat q) → t = u ∧ id = j ∧ p = q
  /-- Only its owner writes a byte of a slot. -/
  write : ∀ {tr₁ tr₂ t id c a b}, tr = tr₁ ++ .op t id c (.writeByte a b) () :: tr₂ →
    ∃ p j, Owns tr₁ t id p ∧ j < r.objSize ∧ a = r.base (toNat p) + j
  /-- Only its owner reads a byte of a slot. -/
  read : ∀ {tr₁ tr₂ t id c a b}, tr = tr₁ ++ .op t id c (.readByte a) b :: tr₂ →
    ∃ p j, Owns tr₁ t id p ∧ j < r.objSize ∧ a = r.base (toNat p) + j
  /-- Only its owner stores the word of a slot. -/
  store : ∀ {tr₁ tr₂ t id c i v}, tr = tr₁ ++ .op t id c (.storeSlot i v) () :: tr₂ →
    ∃ p, Owns tr₁ t id p ∧ toNat i = r.index (toNat p)

theorem owners_run (hf : Fresh r m₀) (h : Run (sys r Tid) (.start m₀) tr c₁)
    (hb : NoOverflow r tr) : ∃ R, Owners r tr c₁.shared R := by
  obtain ⟨R, -, -, ⟨hk, ho⟩, hs⟩ :=
    Inductive.run (follows r Tid) ((known_inductive.both owns_inductive).both
      (slotInv_inductive hf)) h
  exact ⟨R, hk, hs hb, ho⟩

theorem owners_before_op {o : Op W} {x : o.Res} (hf : Fresh r m₀)
    (h : Run (sys r Tid) (.start m₀) (tr₁ ++ .op t id c o x :: tr₂) c₁)
    (hb : NoOverflow r (tr₁ ++ .op t id c o x :: tr₂)) :
    ∃ m R l l', Owners r tr₁ m R ∧ R t = some ⟨id, c, l⟩ ∧ Trans r l o x l' := by
  obtain ⟨n, m, m', R, l, l', -, ⟨⟨hk, ho⟩, hs⟩, ht, hm, -⟩ :=
    Inductive.before_op (follows r Tid) ((known_inductive.both owns_inductive).both
      (slotInv_inductive hf)) h
  exact ⟨m, R, l, l', ⟨hk, hs hb.of_append, ho⟩, ht, hm⟩

section New

variable {r : Ring SizeT} {m₀ : Mem SizeT Tid} {tr tr₁ tr₂ : List (Ev SizeT Tid r.objSize)}
  {c₁ c₂ cf : Config (Op SizeT) Op.Res Empty Tid (Call r.objSize) Ret (Mem SizeT Tid)}

/-- The slots of a fresh ring are accessed under mutual exclusion. -/
theorem Fresh.exclusive (hf : Fresh r m₀) (h : Run (sys r Tid) (.start m₀) tr cf)
    (hb : NoOverflow r tr) : Exclusive r tr where
  unique ht hu hi := by
    obtain ⟨R, ho⟩ := owners_run hf h hb
    obtain ⟨htu, hid, hpq⟩ := ho.unique ht hu hi
    exact ⟨htu, hid, toNat_inj hpq⟩
  write htr := by
    obtain ⟨m, R, l, l', ho, ht, hm⟩ := owners_before_op hf (htr ▸ h) (htr ▸ hb)
    exact ho.write ht hm
  read htr := by
    obtain ⟨m, R, l, l', ho, ht, hm⟩ := owners_before_op hf (htr ▸ h) (htr ▸ hb)
    exact ho.read ht hm
  store htr := by
    obtain ⟨m, R, l, l', ho, ht, hm⟩ := owners_before_op hf (htr ▸ h) (htr ▸ hb)
    exact ho.store ht hm

/-- **Mpmc slots are accessed under mutual exclusion**, and their words only grow. -/
theorem mpmc_exclusion (h₁ : Run (sys r Tid) (.start (getBuf r .mpmcSlot m₀)) tr₁ c₁)
    (h₂ : Run (sys r Tid) c₁ tr₂ c₂) (hlt : (pushClaims (tr₁ ++ tr₂)).length < 2 ^ 63) :
    Exclusive r (tr₁ ++ tr₂) ∧
      ∀ i, toNat (c₁.shared.slot i) ≤ toNat (c₂.shared.slot i) := by
  have hf : Fresh r (getBuf r .mpmcSlot m₀) := fresh_getBuf m₀
  have hb : NoOverflow r (tr₁ ++ tr₂) := noOverflow_of_lt hlt
  exact ⟨hf.exclusive (h₁.trans h₂) hb, slot_le_of_run hf h₁ h₂ hb⟩

end New

theorem mpmc_exclusion_pushPop :
    Exclusive tinyRing
        ([] ++ seqTrace exec (body tinyRing) pushPop 0 (getBuf tinyRing .mpmcSlot .zero)) ∧
      ∀ i, toNat ((getBuf tinyRing .mpmcSlot (.zero : Mem SizeT Bool)).slot i) ≤
        toNat ((seqState exec (body tinyRing) pushPop (getBuf tinyRing .mpmcSlot .zero)).slot i) :=
  mpmc_exclusion .refl (Run.seq pushPop (fun _ _ => trivial) 0 _) (by decide)

end Mpmc

end RingBuf
