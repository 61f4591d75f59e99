import RingBuf.Image.Rings

/-!
# Using a ring that is still being created

An attach succeeds as soon as the file has its size, which is before `get_buf` has written into it.
So other processes may be at work while the creator still stores the slot words. As long as nobody
touches a slot word before the creator's store of it (`Careful`), the stores to come do not matter:
with them the bytes hold a state of the ring model (`mpmc_creating`, `mpsc_creating`). A push into
an Mpsc ring that comes before the store of its slot is lost (`push_lost`).
-/

namespace RingBuf

open Conc Word Bytes
open Setup (Geometry Field Store storeData storeData_append load_storeData headerStores ringStores
  slotStores slotFlag slotValue slotInit_slots hasSlots slotOffsetAt bufferOffsetAt sizeofSlot)

namespace Image

variable {Tid : Type}

/-! ## Stores to come -/

/-- No store touches the `n` bytes at `a`. -/
def Apart (a n : Nat) (xs : List Store) : Prop :=
  ∀ x ∈ xs, a + n ≤ x.area.1 ∨ x.area.1 + x.area.2 ≤ a

/-- The bytes after some more stores. -/
def finish (xs : List Store) (s : Image Tid) : Image Tid := { s with data := storeData s.data xs }

theorem blit_comm {d : Data} {a b n k : Nat} {v w : Data} (h : a + n ≤ b ∨ b + k ≤ a) :
    blit (blit d a n v) b k w = blit (blit d b k w) a n v := by
  funext i
  unfold blit
  split_ifs <;> first | rfl | omega

theorem storeData_blit {xs : List Store} {d : Data} {a n : Nat} {v : Data} (h : Apart a n xs) :
    storeData (blit d a n v) xs = blit (storeData d xs) a n v := by
  induction xs generalizing d with
  | nil => rfl
  | cons x xs ih =>
    have hx := h x (List.mem_cons_self ..)
    have hxs : Apart a n xs := fun y hy => h y (List.mem_cons_of_mem _ hy)
    cases x with
    | size b w =>
      change a + n ≤ b ∨ b + 8 ≤ a at hx
      show storeData (blit (blit d a n v) b 8 (bytes (n := 8) w)) xs = _
      rw [blit_comm hx]
      exact ih hxs
    | int b w =>
      change a + n ≤ b ∨ b + 4 ≤ a at hx
      show storeData (blit (blit d a n v) b 4 (bytes (n := 4) w)) xs = _
      rw [blit_comm hx]
      exact ih hxs

theorem storeData_of_apart {xs : List Store} {d : Data} {b : Nat} (h : Apart b 1 xs) :
    storeData d xs b = d b := by
  induction xs generalizing d with
  | nil => rfl
  | cons x xs ih =>
    have hx := h x (List.mem_cons_self ..)
    have hxs : Apart b 1 xs := fun y hy => h y (List.mem_cons_of_mem _ hy)
    cases x with
    | size a w =>
      have hout : ¬(a ≤ b ∧ b < a + 8) := by
        change b + 1 ≤ a ∨ a + 8 ≤ b at hx
        omega
      exact (ih hxs).trans (blit_of_not_mem hout)
    | int a w =>
      have hout : ¬(a ≤ b ∧ b < a + 4) := by
        change b + 1 ≤ a ∨ a + 4 ≤ b at hx
        omega
      exact (ih hxs).trans (blit_of_not_mem hout)

section Finish

variable {s : Image Tid} {xs : List Store} {a : Nat}

theorem word_finish (h : Apart a 8 xs) : (s.finish xs).word a = s.word a := load_storeData h

theorem finish_put (h : Apart a 8 xs) (v : SizeT) :
    (s.put a v).finish xs = (s.finish xs).put a v := by
  unfold finish put store
  rw [storeData_blit h]

theorem finish_update (h : Apart a 1 xs) (b : Byte) :
    finish xs { s with data := Function.update s.data a b } =
      { s.finish xs with data := Function.update (s.finish xs).data a b } := by
  have hblit : ∀ d : Data, Function.update d a b = blit d a 1 fun _ => b := by
    intro d
    funext i
    unfold blit
    by_cases hi : i = a
    · rw [hi, Function.update_self, if_pos ⟨Nat.le_refl a, Nat.lt_succ_self a⟩]
    · rw [Function.update_of_ne hi, if_neg (by omega)]
  unfold finish
  simp only [hblit, storeData_blit h]

end Finish

/-! ## The system -/

/-- A mapping in which the creator still has to make the stores `rest`. -/
structure Creating (Tid : Type) where
  image : Image Tid
  rest : List Store

/-- The stores to come are stores of slot words of the ring. -/
def SlotsOnly (r : Ring SizeT) (xs : List Store) : Prop :=
  ∀ x ∈ xs, ∃ j v, j < r.cap ∧ x = .size (slots r + 64 * j) v

/-- The operation touches no slot word that is still to be stored. -/
def Careful (r : Ring SizeT) (xs : List Store) : Op SizeT → Prop
  | .loadSlot i | .storeSlot i _ => ∀ x ∈ xs, x.area.1 ≠ slots r + 64 * i.toNat
  | _ => True

instance (r : Ring SizeT) (xs : List Store) : (o : Op SizeT) → Decidable (Careful r xs o)
  | .loadSlot i | .storeSlot i _ =>
    inferInstanceAs (Decidable (∀ x ∈ xs, x.area.1 ≠ slots r + 64 * i.toNat))
  | .loadHead | .loadTail | .storeHead _ | .storeTail _ | .casHead _ _ | .casTail _ _
  | .readByte _ | .writeByte _ _ | .getLocalHead | .setLocalHead _ | .getLocalTail
  | .setLocalTail _ | .callback _ => .isTrue trivial

variable [DecidableEq Tid]

/-- Threads that call the ring's functions while the creator goes on storing, where an operation
happens only when `may` allows it. -/
def creating {Call Ret : Type} (may : List Store → Op SizeT → Prop)
    (body : Call → RingProg SizeT Ret) (allow : (Tid → Option Call) → Tid → Call → Prop) :
    Sys (Op SizeT) Op.Res Empty Tid Call Ret (Creating Tid) where
  exec t o s x s' := may s.rest o ∧ exec t o s.image = (x, s'.image) ∧ s'.rest = s.rest
  env s s' := ∃ x xs, s.rest = x :: xs ∧ s' = ⟨s.image.finish [x], xs⟩
  body := body
  code := Empty.elim
  allow := allow

variable {g : Geometry} {r : Ring SizeT} {d : Data} {s : Image Tid} {m : Mem SizeT Tid}
  {xs : List Store}

omit [DecidableEq Tid] in
theorem SlotsOnly.apart (h : SlotsOnly r xs) {a n : Nat} (ha : a + n ≤ slots r) :
    Apart a n xs := by
  intro x hx
  obtain ⟨j, v, -, rfl⟩ := h x hx
  left
  show a + n ≤ slots r + 64 * j
  omega

theorem SlotsOnly.apart_slot (h : SlotsOnly r xs) {i : Nat}
    (hi : ∀ x ∈ xs, x.area.1 ≠ slots r + 64 * i) : Apart (slots r + 64 * i) 8 xs := by
  intro x hx
  have hne := hi x hx
  obtain ⟨j, v, -, rfl⟩ := h x hx
  change slots r + 64 * j ≠ _ at hne
  show _ ≤ slots r + 64 * j ∨ slots r + 64 * j + 8 ≤ _
  omega

/-- A careful operation may as well come after the stores to come. -/
theorem exec_finish (hf : Formatted g r d) (hlt : total g r < 2 ^ 64) {t : Tid} {o : Op SizeT}
    (ho : Within g r o) (hc : Careful r xs o) (hxs : SlotsOnly r xs)
    (h : Holds g r d (s.finish xs) m) :
    exec t o (s.finish xs) = ((exec t o s).1, (exec t o s).2.finish xs) := by
  have hslots : (192 : Nat) ≤ slots r := Nat.le_add_right ..
  have hhead : Apart Field.head.offset 8 xs := hxs.apart (by simp only [Field.offset]; omega)
  have htail : Apart Field.tail.offset 8 xs := hxs.apart (by simp only [Field.offset]; omega)
  have hslotAt : ∀ {i : SizeT}, hasSlots g.kind = true → i.toNat < r.cap →
      s.slotAt i = slots r + 64 * i.toNat := by
    intro i hs hi
    rw [← h.slotAt hf hlt hs hi]
    unfold slotAt
    rw [word_finish (hxs.apart (by simp only [slotOffsetAt]; omega))]
  have hbyteAt : ∀ a, s.byteAt a = 192 + a := by
    intro a
    rw [← h.byteAt hf a]
    unfold byteAt
    rw [word_finish (hxs.apart (by simp only [bufferOffsetAt]; omega))]
  have hbyte : ∀ {a}, a < r.cap * r.objSize → Apart (192 + a) 1 xs := by
    intro a ha
    apply hxs.apart
    unfold slots
    omega
  cases o with
  | loadHead => exact Prod.ext (word_finish hhead) rfl
  | loadTail => exact Prod.ext (word_finish htail) rfl
  | storeHead v => exact Prod.ext rfl (finish_put hhead v).symm
  | storeTail v => exact Prod.ext rfl (finish_put htail v).symm
  | casHead e v =>
    simp only [exec, word_finish hhead]
    split
    case isTrue => exact Prod.ext rfl (finish_put hhead v).symm
    case isFalse => rfl
  | casTail e v =>
    simp only [exec, word_finish htail]
    split
    case isTrue => exact Prod.ext rfl (finish_put htail v).symm
    case isFalse => rfl
  | loadSlot i =>
    simp only [exec, h.slotAt hf hlt ho.1 ho.2, hslotAt ho.1 ho.2]
    exact Prod.ext (word_finish (hxs.apart_slot hc)) rfl
  | storeSlot i v =>
    simp only [exec, h.slotAt hf hlt ho.1 ho.2, hslotAt ho.1 ho.2]
    exact Prod.ext rfl (finish_put (hxs.apart_slot hc) v).symm
  | readByte a =>
    simp only [exec, h.byteAt hf, hbyteAt]
    exact Prod.ext (storeData_of_apart (hbyte ho)) rfl
  | writeByte a b =>
    simp only [exec, h.byteAt hf, hbyteAt]
    exact Prod.ext rfl (finish_update (hbyte ho) b).symm
  | getLocalHead => rfl
  | setLocalHead v => rfl
  | getLocalTail => rfl
  | setLocalTail v => rfl
  | callback p => rfl

/-- The stores to come are of slot words, and after them the bytes hold the ring `m`. -/
structure HoldsAfter (g : Geometry) (r : Ring SizeT) (d : Data) (s : Creating Tid)
    (m : Mem SizeT Tid) : Prop where
  slots : SlotsOnly r s.rest
  holds : Holds g r d (s.image.finish s.rest) m

/-- Careful threads do to the ring that will be there what they do to a ring. -/
theorem represents_creating {Call Ret : Type} {body : Call → RingProg SizeT Ret}
    {allow : (Tid → Option Call) → Tid → Call → Prop} (hf : Formatted g r d)
    (hlt : total g r < 2 ^ 64) (hall : ∀ a, (body a).All (Within g r)) :
    Represents (creating (Careful r) body allow) (Sys.ofFun RingBuf.exec body allow) (Within g r)
      (HoldsAfter g r d) where
  exec := by
    intro t o s x s' m ho h hx
    obtain ⟨hc, himage, hrest⟩ := hx
    have hfin := exec_finish (t := t) hf hlt ho hc h.slots h.holds
    rw [himage] at hfin
    obtain ⟨hans, hholds⟩ := h.holds.exec (t := t) hf hlt ho
    rw [hfin] at hans hholds
    refine ⟨(RingBuf.exec t o m).2, Prod.ext hans.symm rfl, ⟨hrest ▸ h.slots, ?_⟩⟩
    rw [hrest]
    exact hholds
  env := by
    rintro s _ m h ⟨x, xs, hrest, rfl⟩
    have hfin : (s.image.finish [x]).finish xs = s.image.finish s.rest := by
      rw [hrest]
      unfold finish
      rw [← storeData_append]
      rfl
    refine .inl ⟨fun y hy => h.slots y (hrest ▸ List.mem_cons_of_mem _ hy), ?_⟩
    exact hfin ▸ h.holds
  body _ := rfl
  code l := l.elim
  allow h := h
  all_body := hall
  all_code l := l.elim

/-! ## Runs -/

/-- The stores of the slot words, in the order of `get_buf`. -/
def slotWords (g : Geometry) : List Store :=
  (slotStores g.info.slotOffS g.objNum (slotValue g.kind)).tail

/-- A mapping whose header is complete, and whose slot words are still to be stored. -/
def headed (g : Geometry) (d : Data) (prot fd : CInt) (localHead localTail : Tid → SizeT) :
    Creating Tid where
  image :=
    { data := storeData d (headerStores g.info g.objNum prot fd ++
        [.size slotOffsetAt g.info.slotOffS])
      localHead := localHead
      localTail := localTail }
  rest := slotWords g

variable {prot fd : CInt} {localHead localTail : Tid → SizeT}

omit [DecidableEq Tid] in
/-- After the stores to come, the mapping is that of a new ring. -/
theorem finish_headed (hs : hasSlots g.kind = true) :
    (headed g d prot fd localHead localTail).image.finish (slotWords g) =
      created d prot fd localHead localTail g := by
  have hsplit : ringStores g.info g.objNum (slotFlag g.kind) prot fd =
      (headerStores g.info g.objNum prot fd ++ [.size slotOffsetAt g.info.slotOffS]) ++
        slotWords g := by
    rw [ringStores, slotInit_slots hs, List.append_assoc]
    rfl
  rw [created, hsplit, storeData_append]
  rfl

theorem slotsOnly_slotWords (hg : g.Valid) (hr : getBufRing g.objNum g.objSize = some r)
    (hs : hasSlots g.kind = true) : SlotsOnly r (slotWords g) := by
  intro x hx
  obtain ⟨hcap, hmul⟩ := cap_mul_objSize hg hr
  obtain ⟨j, hj, rfl⟩ := List.mem_map.1 hx
  have hj' := List.mem_range.1 hj
  refine ⟨j, slotValue g.kind (.ofNat 64 j), hcap ▸ hj', ?_⟩
  rw [Geometry.toNat_slot hg hs hj', slots, hmul, Nat.mul_comm 64]

/-- Every history of careful threads is one of the ring, and what the bytes will hold once the
creator has made its last store is the ring's state. -/
theorem run_headed {Call Ret : Type} {body : Call → RingProg SizeT Ret}
    {allow : (Tid → Option Call) → Tid → Call → Prop}
    {tr : List (Event (Op SizeT) Op.Res Tid Call Ret)}
    {cf : Config (Op SizeT) Op.Res Empty Tid Call Ret (Creating Tid)} (hg : g.Valid)
    (hr : getBufRing g.objNum g.objSize = some r) (hs : hasSlots g.kind = true)
    (hall : ∀ a, (body a).All (Within g r))
    (h : Run (creating (Careful r) body allow) (.start (headed g d prot fd localHead localTail)) tr
      cf) :
    ∃ m, Run (.ofFun RingBuf.exec body allow)
        (.start ((created d prot fd localHead localTail g).mem r)) tr ⟨m, cf.thread, cf.fresh⟩ ∧
      HoldsAfter g r (created d prot fd localHead localTail g).data cf.shared m := by
  have hrep : Represents (creating (Careful r) body allow) (Sys.ofFun RingBuf.exec body allow)
      (Within g r) (HoldsAfter g r (created d prot fd localHead localTail g).data) :=
    represents_creating (formatted hg hr d prot fd) (total_lt hg hr) hall
  have hstart : HoldsAfter g r (created d prot fd localHead localTail g).data
      (headed g d prot fd localHead localTail)
      ((created d prot fd localHead localTail g).mem r) := by
    refine ⟨slotsOnly_slotWords hg hr hs, ?_⟩
    show Holds g r _ ((headed g d prot fd localHead localTail).image.finish (slotWords g)) _
    rw [finish_headed hs]
    exact holds_mem g r _
  exact hrep.run hstart h

section Moves

variable {Call Ret : Type} {may : List Store → Op SizeT → Prop} {body : Call → RingProg SizeT Ret}
  {allow : (Tid → Option Call) → Tid → Call → Prop}

theorem run_creator (s : Image Tid) (x : Store) (xs : List Store)
    (th : Tid → Thread (Op SizeT) Op.Res Empty Call Ret) (n : Nat) :
    Run (creating may body allow) ⟨⟨s, x :: xs⟩, th, n⟩ [] ⟨⟨s.finish [x], xs⟩, th, n⟩ :=
  Run.single (e := none) (.env ⟨x, xs, rfl, rfl⟩)

theorem alone_creating (t : Tid) (p : RingProg SizeT Ret) (s : Image Tid) (xs : List Store)
    (hmay : ∀ x ∈ p.log (exec t) s, may xs x.1) :
    Alone (creating may body allow) t p ⟨s, xs⟩ (p.log (exec t) s) (p.run (exec t) s).1
      ⟨(p.run (exec t) s).2, xs⟩ := by
  induction p generalizing s with
  | ret v => exact .ret
  | op o k ih =>
    have hop : (creating may body allow).exec t o ⟨s, xs⟩ (exec t o s).1 ⟨(exec t o s).2, xs⟩ :=
      ⟨hmay _ (List.mem_cons_self ..), rfl, rfl⟩
    exact .op hop (ih _ _ fun x hx => hmay x (List.mem_cons_of_mem _ hx))
  | jump l => exact l.elim

/-- The events of a call that nothing interrupts. -/
def aloneTrace (body : Call → RingProg SizeT Ret) (t : Tid) (a : Call) (n : Nat) (s : Image Tid) :
    List (Event (Op SizeT) Op.Res Tid Call Ret) :=
  .call t n a :: (opEvents t n a ((body a).log (exec t) s) ++
    [.ret t n a ((body a).run (exec t) s).1])

theorem run_call {t : Tid} {a : Call} {th : Tid → Thread (Op SizeT) Op.Res Empty Call Ret}
    (ht : th t = .idle) (ha : allow (fun u => (th u).call?) t a) (s : Image Tid) (xs : List Store)
    (n : Nat) (hmay : ∀ x ∈ (body a).log (exec t) s, may xs x.1) :
    Run (creating may body allow) ⟨⟨s, xs⟩, th, n⟩ (aloneTrace body t a n s)
      ⟨⟨((body a).run (exec t) s).2, xs⟩, th, n + 1⟩ :=
  Run.alone (S := creating may body allow) (c := ⟨⟨s, xs⟩, th, n⟩) ht ha
    (alone_creating t (body a) s xs hmay)

end Moves

/-- A small mapping whose slot words are still to be stored. -/
def tinyHeaded (kind : RingBufSlot) : Creating Bool :=
  headed (tiny kind) (fun _ => 0) Setup.mapShm 3 (fun _ => 0) fun _ => 0

/-- Its first slot word, and the second. -/
def firstWord (kind : RingBufSlot) : Store := .size (slots tinyRing) (slotValue kind 0)
def secondWord (kind : RingBufSlot) : Store := .size (slots tinyRing + 64) (slotValue kind 1)

/-- The mapping when the first slot word has been stored. -/
def tinyFirst (kind : RingBufSlot) : Image Bool := (tinyHeaded kind).image.finish [firstWord kind]

/-- **An Mpmc ring may be used while it is created**, slot by slot. -/
theorem mpmc_creating {tr : List (Mpmc.Ev SizeT Tid r.objSize)}
    {cf : Config (Op SizeT) Op.Res Empty Tid (Mpmc.Call r.objSize) Ret (Creating Tid)}
    (hg : g.Valid) (hr : getBufRing g.objNum g.objSize = some r) (hk : g.kind = .mpmcSlot)
    (h : Run (creating (Careful r) (Mpmc.body r) fun _ _ _ => True)
      (.start (headed g d prot fd localHead localTail)) tr cf)
    (hlt : (Mpmc.pushClaims tr).length < 2 ^ 63) :
    (∃ m, Run (Mpmc.sys r Tid) (.start ((created d prot fd localHead localTail g).mem r)) tr
        ⟨m, cf.thread, cf.fresh⟩ ∧
      HoldsAfter g r (created d prot fd localHead localTail g).data cf.shared m) ∧
    Linearized r.cap [] Mpmc.Effect Mpmc.Returns tr ((Mpmc.queueOps r.objSize).lin [] tr).acts := by
  have hs : hasSlots g.kind = true := by rw [hk]; rfl
  obtain ⟨m, hrun, hm⟩ := run_headed hg hr hs (all_mpmc hs) h
  exact ⟨⟨m, hrun, hm⟩, (fresh_mpmc hg hr hk d fd).linearized hrun hlt⟩

/-- A push into the first slot, before the second slot word has been stored. -/
theorem mpmc_creating_push :
    Linearized tinyRing.cap [] Mpmc.Effect Mpmc.Returns
      (aloneTrace (Mpmc.body tinyRing) true (.push [7]) 0 (tinyFirst .mpmcSlot))
      ((Mpmc.queueOps tinyRing.objSize).lin []
        (aloneTrace (Mpmc.body tinyRing) true (.push [7]) 0 (tinyFirst .mpmcSlot))).acts :=
  (mpmc_creating (tiny_valid .mpmcSlot) rfl rfl
    ((run_creator (tinyHeaded .mpmcSlot).image (firstWord .mpmcSlot) [secondWord .mpmcSlot] _
      0).trans (run_call rfl trivial (tinyFirst .mpmcSlot) _ 0 (by decide))) (by decide)).2

/-- **An Mpsc ring may be used while it is created**, slot by slot. -/
theorem mpsc_creating {tr : List (Mpsc.Ev Tid r.objSize)}
    {cf : Config (Op SizeT) Op.Res Empty Tid (Mpsc.Call r.objSize) Ret (Creating Tid)}
    (hg : g.Valid) (hr : getBufRing g.objNum g.objSize = some r) (hk : g.kind = .mpscSlot)
    (h : Run (creating (Careful r) (Mpsc.body r) fun cur _ c =>
        c.pops = true → ∀ u c', cur u = some c' → c'.pops = false)
      (.start (headed g d prot fd localHead localTail)) tr cf)
    (hlt : (Mpsc.pushClaims tr).length < 2 ^ 63) :
    (∃ m, Run (Mpsc.sys r Tid) (.start ((created d prot fd localHead localTail g).mem r)) tr
        ⟨m, cf.thread, cf.fresh⟩ ∧
      HoldsAfter g r (created d prot fd localHead localTail g).data cf.shared m) ∧
    Linearized r.cap [] Mpsc.Effect Mpsc.Returns tr ((Mpsc.queueOps r.objSize).lin [] tr).acts := by
  have hs : hasSlots g.kind = true := by rw [hk]; rfl
  obtain ⟨m, hrun, hm⟩ := run_headed hg hr hs (all_mpsc hs) h
  exact ⟨⟨m, hrun, hm⟩, (fresh_mpsc hg hr hk d fd).linearized hrun hlt⟩

theorem mpsc_creating_push :
    Linearized tinyRing.cap [] Mpsc.Effect Mpsc.Returns
      (aloneTrace (Mpsc.body tinyRing) true (.push [7]) 0 (tinyFirst .mpscSlot))
      ((Mpsc.queueOps tinyRing.objSize).lin []
        (aloneTrace (Mpsc.body tinyRing) true (.push [7]) 0 (tinyFirst .mpscSlot))).acts :=
  (mpsc_creating (tiny_valid .mpscSlot) rfl rfl
    ((run_creator (tinyHeaded .mpscSlot).image (firstWord .mpscSlot) [secondWord .mpscSlot] _
      0).trans (run_call rfl (fun h => by cases h) (tinyFirst .mpscSlot) _ 0 (by decide)))
    (by decide)).2

/-! ## Without care -/

/-- The mapping after a push that has come before the first slot word. -/
def tinyEarly : Image Bool :=
  ((Mpsc.body tinyRing (.push [7])).run (exec true) (tinyHeaded .mpscSlot).image).2

/-- The mapping when the creator has then made its last store. -/
def tinyLost : Image Bool := (tinyEarly.finish [firstWord .mpscSlot]).finish [secondWord .mpscSlot]

/-- A push into a slot of an Mpsc ring whose word is still to be stored reports success, and the
creator's store then undoes its mark: the next pop waits for a producer that has long finished. -/
theorem push_lost {allow : (Bool → Option (Mpsc.Call tinyRing.objSize)) → Bool →
      Mpsc.Call tinyRing.objSize → Prop} (ha : ∀ t a, allow (fun _ => none) t a) :
    ∃ tr cf, Run (creating (fun _ _ => True) (Mpsc.body tinyRing) allow)
        (.start (tinyHeaded .mpscSlot)) tr cf ∧
      .ret true 0 (.push [7]) ⟨0, []⟩ ∈ tr ∧
      .ret false 1 (.pop none 1) ⟨ringbufSlotWritingData, []⟩ ∈ tr ∧ cf.shared.rest = [] := by
  have hpush : Run (creating (fun _ _ => True) (Mpsc.body tinyRing) allow)
      ⟨⟨(tinyHeaded .mpscSlot).image, [firstWord .mpscSlot, secondWord .mpscSlot]⟩,
        fun _ => .idle, 0⟩
      (aloneTrace (Mpsc.body tinyRing) true (.push [7]) 0 (tinyHeaded .mpscSlot).image)
      ⟨⟨tinyEarly, [firstWord .mpscSlot, secondWord .mpscSlot]⟩, fun _ => .idle, 1⟩ :=
    run_call rfl (ha _ _) _ _ 0 fun _ _ => trivial
  have hpop : Run (creating (fun _ _ => True) (Mpsc.body tinyRing) allow)
      ⟨⟨tinyLost, []⟩, fun _ => .idle, 1⟩
      (aloneTrace (Mpsc.body tinyRing) false (.pop none 1) 1 tinyLost)
      ⟨⟨((Mpsc.body tinyRing (.pop none 1)).run (exec false) tinyLost).2, []⟩,
        fun _ => .idle, 2⟩ :=
    run_call rfl (ha _ _) _ _ 1 fun _ _ => trivial
  have hrun := hpush.trans ((run_creator _ _ _ _ _).trans ((run_creator _ _ _ _ _).trans hpop))
  have hpushed : ((Mpsc.body tinyRing (.push [7])).run (exec true)
      (tinyHeaded .mpscSlot).image).1 = ⟨0, []⟩ := by decide
  have hpopped : ((Mpsc.body tinyRing (.pop none 1)).run (exec false) tinyLost).1 =
      ⟨ringbufSlotWritingData, []⟩ := by decide
  refine ⟨_, _, hrun, ?_, ?_, rfl⟩
  · rw [aloneTrace, hpushed]
    simp
  · rw [aloneTrace, aloneTrace, hpopped]
    simp

end Image

end RingBuf
