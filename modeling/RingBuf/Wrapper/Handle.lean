import RingBuf.RefCount
import RingBuf.Setup.Code

/-!
# Handles of the wrapper

A `RingBuf<Kind, Obj, N>` keeps its ring twice: `p_` owns it and `r_` points to it. `Init` sets
both, and the special members are defaulted, so that a copy copies both, and a move moves `p_` but
copies `r_`. The last owner to go gives the ring to the C destructor.

`p_` is a counted pointer (`RefCount.Shared`). Every ring is deleted once, when its last owner goes
(`Ok.released`). A pointer dangles exactly when that happens while another handle, which has been
moved from, still has it in `r_` (`handles_iff`).
-/

namespace RingBuf

namespace Wrapper

open Setup RefCount

/-! ## What `Init` and the deleter do in C -/

/-- `Init` leaves in `r_` what the constructor of the kind returns, `NULL` if it fails. -/
theorem getRingBufE_out {Path : Type} [DecidableEq Path] (hugeSize : SizeT → SizeT) (a : Args Path)
    (k : Kind) (env : Env) (s : Os Path) :
    ((getRingBufE hugeSize true a k).run (Setup.exec env) s).1.2 =
      ((Setup.getRingBuf hugeSize a k).run (Setup.exec env) s).1 := by
  rw [getRingBufE_eq, getRingBuf_eq]
  simp only [explicitError, Bool.not_true, Bool.false_eq_true, if_false, Conc.Prog.run_bind]
  cases ((Setup.construct hugeSize a k.ctor).run (Setup.exec env) s).1 <;> rfl

theorem delRingBuf_none {Path : Type} (k : Kind) :
    (delRingBuf none k : SysProg Path Unit) = pure () := by
  cases k <;> rfl

/-! ## Handles -/

/-- The handles of a program, by name. The rings are named by the calls of `Init` that obtained
them. -/
structure Handles (V : Type) where
  /-- `r_` of each handle that exists. -/
  raw : V → Option (Option Nat)
  /-- `p_` of each handle; block `i` is the one that call `i` of `Init` made. -/
  shared : Shared V
  /-- Which calls of `Init` have obtained a ring. -/
  inits : List Bool

namespace Handles

/-- The operations on handles. -/
inductive Op (V : Type)
  /-- `RingBuf()` -/
  | construct (v : V)
  /-- `Init`, and whether the C constructor returns a ring. -/
  | init (v : V) (ring : Bool)
  /-- `RingBuf(const RingBuf &)` and `RingBuf(RingBuf &&)` -/
  | copy (v w : V)
  | move (v w : V)
  | copyAssign (v w : V)
  | moveAssign (v w : V)
  /-- `~RingBuf()` -/
  | destroy (v : V)

variable {V : Type}

/-- No handles. -/
def empty : Handles V := ⟨fun _ => none, .empty, []⟩

/-- `Get_RingBuf` of an existing handle. -/
def getRingBuf (s : Handles V) (v : V) : Option Nat := (s.raw v).join

/-- The arguments of the calls of the C destructor so far. -/
def dels (s : Handles V) : List (Option Nat) :=
  s.shared.freed.map fun b => if s.inits[b]? = some true then some b else none

/-- Constructors need a name without handle, the other operations handles. -/
def Valid (s : Handles V) : Op V → Prop
  | .construct v => s.raw v = none
  | .init v _ | .destroy v => s.raw v ≠ none
  | .copy v w | .move v w => s.raw v = none ∧ s.raw w ≠ none
  | .copyAssign v w | .moveAssign v w => s.raw v ≠ none ∧ s.raw w ≠ none

instance (s : Handles V) (op : Op V) : Decidable (s.Valid op) := by
  cases op <;> unfold Valid <;> infer_instance

/-- What an operation does. -/
def exec [DecidableEq V] (s : Handles V) : Op V → Handles V
  | .construct v => { s with raw := Function.update s.raw v (some none) }
  | .init v ring =>
    { raw := Function.update s.raw v (some (if ring then some s.shared.made else none))
      shared := s.shared.make v
      inits := s.inits ++ [ring] }
  | .copy v w | .copyAssign v w =>
    { s with
      raw := Function.update s.raw v (s.raw w)
      shared := s.shared.copy v w }
  | .move v w | .moveAssign v w =>
    { s with
      raw := Function.update s.raw v (s.raw w)
      shared := s.shared.move v w }
  | .destroy v =>
    { s with
      raw := Function.update s.raw v none
      shared := s.shared.reset v }

/-! ## What should hold -/

variable {s : Handles V} {op : Op V} {v w : V} {b : Nat}

/-- Every ring that `Init` has obtained has been given to the destructor once if no handle owns it,
and never if one does. -/
structure Released (s : Handles V) : Prop where
  owned : ∀ b v, s.inits[b]? = some true → s.raw v ≠ none → s.shared.held v = some b →
    some b ∉ s.dels
  once : ∀ b, s.inits[b]? = some true →
    (∀ v, s.raw v ≠ none → s.shared.held v ≠ some b) → s.dels.count (some b) = 1

/-- What `Get_RingBuf` of an existing handle returns, if not `NULL`, is a ring that has not been
given to the destructor. -/
def Live (s : Handles V) : Prop :=
  ∀ v b, s.getRingBuf v = some b → s.inits[b]? = some true ∧ some b ∉ s.dels

/-- If `v` is the last owner of its ring, no other handle points to it. -/
def Alone (s : Handles V) (v : V) : Prop :=
  ∀ b, s.shared.held v = some b → (∀ u, u ≠ v → s.shared.held u ≠ some b) →
    ∀ u, u ≠ v → s.getRingBuf u ≠ some b

/-- A handle that is destroyed, overwritten by another one or initialised again is not the last
owner of a ring that another handle points to. -/
def Keeps (s : Handles V) : Op V → Prop
  | .init v _ | .destroy v => Alone s v
  | .copyAssign v w | .moveAssign v w => w ≠ v → Alone s v
  | _ => True

/-! ## What always holds -/

/-- The counts of the owners are right, only existing handles own or point to something, and the
pointers are to rings. -/
structure Ok (s : Handles V) : Prop where
  counted : Counted none s.shared
  made : s.shared.made = s.inits.length
  owner : ∀ v, s.raw v = none → s.shared.held v = none
  ring : ∀ v b, s.getRingBuf v = some b → s.inits[b]? = some true

namespace Ok

theorem exists_of_held (h : Ok s) (hv : s.shared.held v = some b) : s.raw v ≠ none := by
  intro hn
  cases (h.owner v hn).symm.trans hv

theorem lt_made (h : Ok s) (hb : s.inits[b]? = some true) : b < s.shared.made := by
  rw [h.made]
  exact (List.getElem?_eq_some_iff.1 hb).1

theorem mem_dels_iff (h : Ok s) (hb : s.inits[b]? = some true) :
    some b ∈ s.dels ↔ ∀ v, s.shared.held v ≠ some b := by
  have hmem : some b ∈ s.dels ↔ b ∈ s.shared.freed := by
    rw [dels, List.mem_map]
    constructor
    · rintro ⟨c, hc, he⟩
      split_ifs at he
      exact Option.some.inj he ▸ hc
    · exact fun hc => ⟨b, hc, if_pos hb⟩
  rw [hmem, h.counted.mem_freed_iff]
  exact and_iff_right (h.lt_made hb)

theorem released (h : Ok s) : Released s where
  owned b v hb _ hv hm := (h.mem_dels_iff hb).1 hm v hv
  once b hb hn := by
    have hnone : ∀ v, s.shared.held v ≠ some b := fun v hv => hn v (h.exists_of_held hv) hv
    have hfreed : b ∈ s.shared.freed := h.counted.mem_freed_iff.2 ⟨h.lt_made hb, hnone⟩
    have hcount : s.dels.count (some b) = s.shared.freed.count b := by
      rw [dels, List.count_eq_countP, List.countP_map, List.count_eq_countP]
      refine List.countP_congr fun c _ => ?_
      by_cases hcb : c = b
      · simp [hcb, hb]
      · by_cases hc : s.inits[c]? = some true <;> simp [hc, hcb]
    rw [hcount]
    exact List.count_eq_one_of_mem h.counted.nodup hfreed

/-- A pointer is live as long as its ring has an owner. -/
theorem live_iff (h : Ok s) :
    Live s ↔ ∀ v b, s.getRingBuf v = some b → ∃ u, s.shared.held u = some b := by
  refine forall_congr' fun v => forall_congr' fun b => imp_congr_right fun hv => ?_
  have hb := h.ring v b hv
  rw [h.mem_dels_iff hb]
  simp [hb]

end Ok

theorem ok_empty : Ok (.empty : Handles V) :=
  ⟨counted_empty, rfl, fun _ _ => rfl, fun _ _ h => nomatch h⟩

/-! ## Every operation -/

variable [DecidableEq V]

/-- The states that are reached while every operation keeps to this. -/
inductive Reach : Handles V → Prop
  | start : Reach .empty
  | step {s : Handles V} {op : Op V} : Reach s → s.Valid op → Keeps s op → Reach (s.exec op)

omit [DecidableEq V] in
theorem getRingBuf_eq_some : s.getRingBuf v = some b ↔ s.raw v = some (some b) := by
  simp [Handles.getRingBuf, Option.join_eq_some_iff]

theorem Ok.update (h : Ok s) {s' : Handles V} {x : Option (Option Nat)}
    (hc : Counted none s'.shared) (hm : s'.shared.made = s'.inits.length)
    (hraw : s'.raw = Function.update s.raw v x)
    (hin : ∀ b : Nat, s.inits[b]? = some true → s'.inits[b]? = some true)
    (hx : ∀ b : Nat, x = some (some b) → s'.inits[b]? = some true)
    (hv : x = none → s'.shared.held v = none)
    (hu : ∀ u, u ≠ v → s.shared.held u = none → s'.shared.held u = none) : Ok s' := by
  refine ⟨hc, hm, fun u hn => ?_, fun u b hb => ?_⟩
  · rw [hraw] at hn
    by_cases huv : u = v
    · rw [huv] at hn ⊢
      exact hv (by rwa [Function.update_self] at hn)
    · rw [Function.update_of_ne huv] at hn
      exact hu u huv (h.owner u hn)
  · rw [getRingBuf_eq_some, hraw] at hb
    by_cases huv : u = v
    · rw [huv, Function.update_self] at hb
      exact hx b hb
    · rw [Function.update_of_ne huv] at hb
      exact hin b (h.ring u b (getRingBuf_eq_some.2 hb))

/-- Every operation keeps it. -/
theorem Ok.exec (h : Ok s) (hv : s.Valid op) : Ok (s.exec op) := by
  -- What a handle takes over from another one is a ring.
  have hcopy : ∀ w b, s.raw w = some (some b) → s.inits[b]? = some true :=
    fun w b hb => h.ring w b (getRingBuf_eq_some.2 hb)
  have hmove : ∀ v w u, u ≠ v → s.shared.held u = none →
      (s.shared.move v w).held u = none := by
    intro v w u hu hn
    rw [Shared.move_held, Function.update_of_ne hu]
    by_cases huw : u = w
    · rw [huw, Function.update_self]
    · rwa [Function.update_of_ne huw]
  cases op with
  | construct v =>
    exact h.update h.counted h.made rfl (fun _ => id) (fun b hb => nomatch hb)
      (fun hn => nomatch hn) fun _ _ => id
  | init v ring =>
    refine h.update (h.counted.make v) ?_ rfl (fun b hb => ?_) (fun b hb => ?_)
      (fun hn => nomatch hn) fun u hu hn => ?_
    · simp [Handles.exec, h.made]
    · exact List.getElem?_append_left (List.getElem?_eq_some_iff.1 hb).1 ▸ hb
    · cases ring with
      | false => cases hb
      | true =>
        obtain rfl : s.shared.made = b := Option.some.inj (Option.some.inj hb)
        simp [Handles.exec, h.made]
    · simpa [Handles.exec, hu] using hn
  | copy v w | copyAssign v w =>
    refine h.update (h.counted.copy v w) ?_ rfl (fun _ => id) (hcopy w) (fun hn => ?_)
      fun u hu hn => ?_
    · simpa [Handles.exec] using h.made
    · exact absurd hn hv.2
    · simpa [Handles.exec, hu] using hn
  | move v w | moveAssign v w =>
    refine h.update (h.counted.move v w) ?_ rfl (fun _ => id) (hcopy w) (fun hn => ?_)
      fun u hu hn => hmove v w u hu hn
    · simpa [Handles.exec] using h.made
    · exact absurd hn hv.2
  | destroy v =>
    refine h.update (h.counted.reset v) ?_ rfl (fun _ => id) (fun b hb => nomatch hb)
      (fun _ => ?_) fun u hu hn => ?_
    · simpa [Handles.exec] using h.made
    · simp [Handles.exec]
    · simpa [Handles.exec, hu] using hn

theorem exists_owner_of_alone (h : Ok s) (hl : Live s) (ha : Alone s v) {u : V} (hu : u ≠ v)
    (hb : s.getRingBuf u = some b) : ∃ x, x ≠ v ∧ s.shared.held x = some b := by
  obtain ⟨x, hx⟩ := h.live_iff.1 hl u b hb
  by_cases hxv : x = v
  · by_contra hn
    exact ha b (hxv ▸ hx) (fun y hy hyb => hn ⟨y, hy, hyb⟩) u hu hb
  · exact ⟨x, hxv, hx⟩

/-- An operation on `v` that changes the owners and pointers of no other handle, a moved one apart,
keeps the pointers live just when `v` may go. -/
theorem live_update_iff (h : Ok s) (hl : Live s) {s' : Handles V} (h' : Ok s')
    (hraw : ∀ u, u ≠ v → s'.getRingBuf u = s.getRingBuf u)
    (hkeep : ∀ x b, x ≠ v → s.shared.held x = some b → ∃ y, s'.shared.held y = some b)
    (hnew : ∀ b, s'.getRingBuf v = some b → (∃ y, s'.shared.held y = some b) ∨
      ∃ w, w ≠ v ∧ s.getRingBuf w = some b)
    (hback : ∀ y b, s'.shared.held y = some b → b < s.shared.made →
      ∃ x, x ≠ v ∧ s.shared.held x = some b) :
    Live s' ↔ Alone s v := by
  rw [h'.live_iff]
  constructor
  · intro hl' b hv hlast u hu hub
    obtain ⟨y, hy⟩ := hl' u b ((hraw u hu).trans hub)
    obtain ⟨x, hx, hxb⟩ := hback y b hy (h.counted.lt b (h.counted.useCount_ne_zero hv))
    exact hlast x hx hxb
  · intro ha u b hub
    have hother : ∀ w, w ≠ v → s.getRingBuf w = some b → ∃ y, s'.shared.held y = some b := by
      intro w hw hwb
      obtain ⟨x, hx, hxb⟩ := exists_owner_of_alone h hl ha hw hwb
      exact hkeep x b hx hxb
    by_cases huv : u = v
    · obtain hy | ⟨w, hw, hwb⟩ := hnew b (huv ▸ hub)
      · exact hy
      · exact hother w hw hwb
    · exact hother u huv ((hraw u huv).symm.trans hub)

theorem live_copy_iff (h : Ok s) (hl : Live s) (hne : w ≠ v)
    (h' : Ok (s.exec (.copyAssign v w))) : Live (s.exec (.copyAssign v w)) ↔ Alone s v := by
  refine live_update_iff h hl h' (fun u hu => ?_) (fun x b hx hb => ⟨x, ?_⟩)
    (fun b hb => .inr ⟨w, hne, ?_⟩) (fun y b hy _ => ?_)
  · simp [Handles.getRingBuf, Handles.exec, hu]
  · simpa [Handles.exec, hx] using hb
  · simpa [Handles.getRingBuf, Handles.exec] using hb
  · by_cases hyv : y = v
    · exact ⟨w, hne, by simpa [Handles.exec, hyv] using hy⟩
    · exact ⟨y, hyv, by simpa [Handles.exec, hyv] using hy⟩

theorem live_move_iff (h : Ok s) (hl : Live s) (hne : w ≠ v)
    (h' : Ok (s.exec (.moveAssign v w))) : Live (s.exec (.moveAssign v w)) ↔ Alone s v := by
  refine live_update_iff h hl h' (fun u hu => ?_) (fun x b hx hb => ?_)
    (fun b hb => .inr ⟨w, hne, ?_⟩) (fun y b hy _ => ?_)
  · simp [Handles.getRingBuf, Handles.exec, hu]
  · by_cases hxw : x = w
    · exact ⟨v, by simpa [Handles.exec, hxw] using hxw ▸ hb⟩
    · exact ⟨x, by simpa [Handles.exec, hx, hxw] using hb⟩
  · simpa [Handles.getRingBuf, Handles.exec] using hb
  · by_cases hyv : y = v
    · exact ⟨w, hne, by simpa [Handles.exec, hyv] using hy⟩
    · by_cases hyw : y = w
      · simp [Handles.exec, hyw, hne] at hy
      · exact ⟨y, hyv, by simpa [Handles.exec, hyv, hyw] using hy⟩

omit [DecidableEq V] in
theorem live_self (h : Ok s) (hl : Live s) {s' : Handles V} (h' : Ok s') (hraw : s'.raw = s.raw)
    (hheld : s'.shared.held = s.shared.held) : Live s' := by
  rw [h'.live_iff]
  intro u b hb
  rw [hheld]
  refine h.live_iff.1 hl u b ?_
  rwa [Handles.getRingBuf, hraw] at hb

omit [DecidableEq V] in
theorem alone_of_raw (h : Ok s) (hv : s.raw v = none) : Alone s v := by
  intro b hb
  cases (h.owner v hv).symm.trans hb

/-- **An operation keeps all pointers live just when it lets go of no ring that another handle
points to.** -/
theorem live_exec_iff (h : Ok s) (hl : Live s) (hv : s.Valid op) :
    Live (s.exec op) ↔ Keeps s op := by
  have h' := h.exec hv
  cases op with
  | construct v =>
    refine iff_of_true (h'.live_iff.2 fun u b hb => ?_) trivial
    by_cases huv : u = v
    · simp [Handles.getRingBuf, Handles.exec, huv] at hb
    · exact h.live_iff.1 hl u b (by simpa [Handles.getRingBuf, Handles.exec, huv] using hb)
  | init v ring =>
    refine live_update_iff h hl h' (fun u hu => ?_) (fun x b hx hb => ⟨x, ?_⟩)
      (fun b hb => .inl ⟨v, ?_⟩) (fun y b hy hlt => ⟨y, ?_⟩)
    · simp [Handles.getRingBuf, Handles.exec, hu]
    · simpa [Handles.exec, hx] using hb
    · cases ring with
      | false => simp [Handles.getRingBuf, Handles.exec] at hb
      | true => simpa [Handles.getRingBuf, Handles.exec] using hb
    · by_cases hyv : y = v
      · rw [hyv] at hy
        simp only [Handles.exec, Shared.make_held, Function.update_self, Option.some.injEq] at hy
        omega
      · exact ⟨hyv, by simpa [Handles.exec, hyv] using hy⟩
  | copy v w =>
    have hne : w ≠ v := fun he => hv.2 (he ▸ hv.1)
    exact (live_copy_iff h hl hne h').trans (iff_true_intro (alone_of_raw h hv.1))
  | move v w =>
    have hne : w ≠ v := fun he => hv.2 (he ▸ hv.1)
    exact (live_move_iff h hl hne h').trans (iff_true_intro (alone_of_raw h hv.1))
  | copyAssign v w =>
    by_cases hne : w = v
    · subst hne
      refine iff_of_true (live_self h hl h' ?_ ?_) fun hn => absurd rfl hn
      · exact Function.update_eq_self ..
      · simp [Handles.exec]
    · exact (live_copy_iff h hl hne h').trans ⟨fun ha _ => ha, fun hk => hk hne⟩
  | moveAssign v w =>
    by_cases hne : w = v
    · subst hne
      refine iff_of_true (live_self h hl h' ?_ ?_) fun hn => absurd rfl hn
      · exact Function.update_eq_self ..
      · simp [Handles.exec]
    · exact (live_move_iff h hl hne h').trans ⟨fun ha _ => ha, fun hk => hk hne⟩
  | destroy v =>
    refine live_update_iff h hl h' (fun u hu => ?_) (fun x b hx hb => ⟨x, ?_⟩)
      (fun b hb => ?_) (fun y b hy _ => ⟨y, ?_⟩)
    · simp [Handles.getRingBuf, Handles.exec, hu]
    · simpa [Handles.exec, hx] using hb
    · simp [Handles.getRingBuf, Handles.exec] at hb
    · by_cases hyv : y = v
      · simp [Handles.exec, hyv] at hy
      · exact ⟨hyv, by simpa [Handles.exec, hyv] using hy⟩

/-! ## Every run -/

theorem Reach.ok (h : Reach s) : Ok s ∧ Live s := by
  induction h with
  | start => exact ⟨ok_empty, fun v b hb => nomatch hb⟩
  | step _ hv hk ih => exact ⟨ih.1.exec hv, (live_exec_iff ih.1 ih.2 hv).2 hk⟩

/-- In every run that has kept to it so far, the next operation leaves every ring deleted once if it
has no owner and every pointer live, just when it keeps to it. -/
theorem handles_iff (h : Reach s) (hv : s.Valid op) :
    (Released (s.exec op) ∧ Live (s.exec op)) ↔ Keeps s op := by
  rw [← live_exec_iff h.ok.1 h.ok.2 hv]
  exact and_iff_right (h.ok.1.exec hv).released

/-- A handle with a ring, from which a second one has been move-constructed. -/
def moved : Handles Bool :=
  ((Handles.empty.exec (.construct false)).exec (.init false true)).exec (.move true false)

theorem moved_reach : Reach moved := by
  refine .step (.step (.step .start ?_ trivial) ?_ ?_) ?_ trivial
  · decide
  · decide
  · intro b hb
    cases hb
  · decide

/-- Destroying the handle that has been moved from. -/
theorem handles_iff_moved :
    (Released (moved.exec (.destroy false)) ∧ Live (moved.exec (.destroy false))) ↔
      Keeps moved (.destroy false) :=
  handles_iff moved_reach (by decide)

/-- Destroying the other one deletes the ring, and the first handle still points to it. -/
theorem handles_dangle :
    Reach moved ∧ moved.Valid (.destroy true) ∧
      (moved.exec (.destroy true)).getRingBuf false = some 0 ∧
      (moved.exec (.destroy true)).dels = [some 0] ∧ ¬Live (moved.exec (.destroy true)) := by
  refine ⟨moved_reach, by decide, rfl, rfl, ?_⟩
  intro hl
  exact (hl false 0 rfl).2 (by decide)

end Handles

end Wrapper

end RingBuf
