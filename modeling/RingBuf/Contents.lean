import RingBuf.Memory

/-!
# What the slots hold

The part of the FIFO argument that all ring kinds share. A push writes the bytes of its element
into the slot of its position, a published slot keeps them, and a pop reads them. How a kind
knows which slots are being written and which are published differs; a `View` says so, and
`Contents` is the invariant in its terms.

* `Contents.write`: writing a byte disturbs no other element, if the slots differ.
* `Contents.publish`: a finished element becomes a published one.
* `Contents.read_byte`: what a pop reads is a byte of the published element.
-/

namespace RingBuf

open Conc Word LawfulWord

/-! ## Elements -/

/-- The bytes that are known of an element, by their offset. -/
abbrev Elem := Nat → Option Byte

/-- The element that consists of the bytes `args`. -/
def Elem.ofList (args : List Byte) : Elem := fun i => args[i]?

/-- One more byte of an element. -/
def Elem.put (e : Elem) (j : Nat) (b : Byte) : Elem := Function.update e j (some b)

theorem Elem.ofList_nil : Elem.ofList [] = fun _ => none := by
  funext i
  exact List.getElem?_nil

theorem Elem.ofList_take_succ {args : List Byte} {j : Nat} {b : Byte} (hb : args[j]? = some b) :
    Elem.ofList (args.take (j + 1)) = (Elem.ofList (args.take j)).put j b := by
  funext i
  show (args.take (j + 1))[i]? = Function.update (fun i => (args.take j)[i]?) j (some b) i
  by_cases hij : i = j
  · subst hij
    rw [Function.update_self, List.getElem?_take_of_lt (Nat.lt_succ_self i), hb]
  · rw [Function.update_of_ne hij, List.getElem?_take, List.getElem?_take]
    by_cases hlt : i < j
    · rw [if_pos hlt, if_pos (by omega)]
    · rw [if_neg hlt, if_neg (by omega)]

/-- The known bytes of `e` stand in the slot of position `p`. -/
def Copied {W : Type} [Word W] (r : Ring W) (buffer : Nat → Byte) (p : Nat) (e : Elem) : Prop :=
  ∀ i b, i < r.objSize → e i = some b → buffer (r.base p + i) = b

/-- The bytes `xs` agree with those known of `e`. -/
def Agree (xs : List Byte) (e : Elem) : Prop :=
  ∀ (i : Nat) (x y : Byte), xs[i]? = some x → e i = some y → x = y

section Bytes

variable {W : Type} [Word W] {r : Ring W} {buffer : Nat → Byte} {p q j : Nat} {b : Byte}
  {e : Elem} {xs : List Byte}

theorem Copied.none : Copied r buffer p fun _ => Option.none := by
  intro i b _ hb
  cases hb

theorem Copied.put (h : Copied r buffer p e) :
    Copied r (Function.update buffer (r.base p + j) b) p (e.put j b) := by
  intro i b' hi hb'
  by_cases hij : i = j
  · subst hij
    rw [Elem.put, Function.update_self] at hb'
    rw [Function.update_self]
    exact Option.some.inj hb'
  · rw [Elem.put, Function.update_of_ne hij] at hb'
    rw [Function.update_of_ne (by omega)]
    exact h i b' hi hb'

theorem Copied.write (h : Copied r buffer p e) (hj : j < r.objSize)
    (hne : r.index q ≠ r.index p) :
    Copied r (Function.update buffer (r.base q + j) b) p e := by
  intro i b' hi hb'
  rw [Function.update_of_ne]
  · exact h i b' hi hb'
  · intro he
    exact hne (Ring.base_add_inj hi hj he).1.symm

theorem Agree.nil : Agree [] e := by
  intro i x y hx
  simp at hx

theorem Agree.snoc (h : Agree xs e) (hb : ∀ y, e xs.length = some y → b = y) :
    Agree (xs ++ [b]) e := by
  intro i x y hx hy
  rcases Nat.lt_trichotomy i xs.length with hi | rfl | hi
  · rw [List.getElem?_append_left hi] at hx
    exact h i x y hx hy
  · rw [List.getElem?_concat_length] at hx
    exact Option.some.inj hx ▸ hb y hy
  · rw [List.getElem?_eq_none (by simpa [Nat.succ_le_iff] using hi)] at hx
    cases hx

end Bytes

/-! ## The invariant -/

/-- What a kind of ring says of its states `σ`, histories `List ε` and roles `ρ`. -/
structure View (σ ε ρ : Type) where
  buffer : σ → Nat → Byte
  /-- The position a role is writing, and what it has written. -/
  fill : ρ → Option (Nat × Elem)
  /-- The position a role is reading, and what it has read. -/
  bytes : ρ → Option (Nat × List Byte)
  /-- Position `k` is published. -/
  full : σ → Nat → Prop
  /-- The push of position `k` has published the element `e`. -/
  pushed : List ε → Nat → Elem → Prop
  pushed_append : ∀ {tr k e}, pushed tr k e → ∀ tr', pushed (tr ++ tr') k e

variable {W Tid Call σ ε ρ : Type} [Word W]

/-- What stands in the slots, and what pops have read there. -/
structure Contents (V : View σ ε ρ) (r : Ring W) (tr : List ε) (s : σ) (R : Roles Tid Call ρ) :
    Prop where
  fill : ∀ t a p e, R t = some a → V.fill a.role = some (p, e) → Copied r (V.buffer s) p e
  full : ∀ k, V.full s k → ∃ e, V.pushed tr k e ∧ Copied r (V.buffer s) k e
  bytes : ∀ t a d bs, R t = some a → V.bytes a.role = some (d, bs) →
    ∃ e, V.pushed tr d e ∧ Agree bs e

namespace Contents

variable {V : View σ ε ρ} {r : Ring W} {tr : List ε} {s s' : σ} {R : Roles Tid Call ρ} {ev : ε}
  [DecidableEq Tid] {t : Tid} {a : Active Call ρ} {y : Option (Active Call ρ)}

/-- A move that writes nothing and publishes nothing. -/
theorem same (h : Contents V r tr s R) (hbuf : V.buffer s' = V.buffer s)
    (hfull : ∀ k, V.full s' k → V.full s k)
    (hfill : ∀ b p e, y = some b → V.fill b.role = some (p, e) → Copied r (V.buffer s) p e)
    (hbytes : ∀ b d bs, y = some b → V.bytes b.role = some (d, bs) →
      ∃ e, V.pushed tr d e ∧ Agree bs e) :
    Contents V r (tr ++ [ev]) s' (Function.update R t y) where
  fill u b p e hu he := by
    rw [hbuf]
    rcases update_some_iff.1 hu with ⟨-, hy⟩ | ⟨-, hu⟩
    · exact hfill b p e hy he
    · exact h.fill u b p e hu he
  full k hk := by
    obtain ⟨e, hp, hc⟩ := h.full k (hfull k hk)
    exact ⟨e, V.pushed_append hp _, hbuf ▸ hc⟩
  bytes u b d bs hu hb := by
    rcases update_some_iff.1 hu with ⟨-, hy⟩ | ⟨-, hu⟩
    · obtain ⟨e, hp, hg⟩ := hbytes b d bs hy hb
      exact ⟨e, V.pushed_append hp _, hg⟩
    · obtain ⟨e, hp, hg⟩ := h.bytes u b d bs hu hb
      exact ⟨e, V.pushed_append hp _, hg⟩

theorem keep {id : Nat} {c : Call} {l l' : ρ} (h : Contents V r tr s R)
    (ht : R t = some ⟨id, c, l⟩) (hbuf : V.buffer s' = V.buffer s)
    (hfull : ∀ k, V.full s' k → V.full s k)
    (hfill : V.fill l' = none ∨ V.fill l' = V.fill l)
    (hbytes : V.bytes l' = none ∨ V.bytes l' = V.bytes l) :
    Contents V r (tr ++ [ev]) s' (Function.update R t (some ⟨id, c, l'⟩)) := by
  refine h.same hbuf hfull (fun b p e hb he => ?_) (fun b d bs hb hbs => ?_)
  · obtain rfl := Option.some.inj hb
    rcases hfill with hn | hl
    · rw [hn] at he; cases he
    · exact h.fill t _ p e ht (hl ▸ he)
  · obtain rfl := Option.some.inj hb
    rcases hbytes with hn | hl
    · rw [hn] at hbs; cases hbs
    · exact h.bytes t _ d bs ht (hl ▸ hbs)

theorem start_fill {id : Nat} {c : Call} {l' : ρ} {p : Nat} (h : Contents V r tr s R)
    (hl' : V.fill l' = some (p, fun _ => none)) (hl'' : V.bytes l' = none)
    (hbuf : V.buffer s' = V.buffer s) (hfull : ∀ k, V.full s' k → V.full s k) :
    Contents V r (tr ++ [ev]) s' (Function.update R t (some ⟨id, c, l'⟩)) := by
  refine h.same hbuf hfull (fun b p' e hb he => ?_) (fun b d bs hb hbs => ?_)
  · obtain rfl := Option.some.inj hb
    obtain ⟨rfl, rfl⟩ := Prod.mk.inj (Option.some.inj (hl'.symm.trans he))
    exact .none
  · obtain rfl := Option.some.inj hb
    rw [hl''] at hbs
    cases hbs

/-- A push writes byte `j` of its element, into a slot that nobody else uses. -/
theorem write {id : Nat} {c : Call} {l l' : ρ} {p j : Nat} {e : Elem} {b : Byte}
    (h : Contents V r tr s R) (ht : R t = some ⟨id, c, l⟩) (hl : V.fill l = some (p, e))
    (hl' : V.fill l' = some (p, e.put j b)) (hl'' : V.bytes l' = none) (hj : j < r.objSize)
    (hbuf : V.buffer s' = Function.update (V.buffer s) (r.base p + j) b)
    (hfull : ∀ k, V.full s' k → V.full s k ∧ r.index k ≠ r.index p)
    (hother : ∀ u b q e, u ≠ t → R u = some b → V.fill b.role = some (q, e) →
      r.index q ≠ r.index p) :
    Contents V r (tr ++ [ev]) s' (Function.update R t (some ⟨id, c, l'⟩)) where
  fill u x q e' hu he' := by
    rw [hbuf]
    rcases update_some_iff.1 hu with ⟨-, hy⟩ | ⟨hne, hu⟩
    · obtain rfl := Option.some.inj hy
      obtain ⟨rfl, rfl⟩ := Prod.mk.inj (Option.some.inj (hl'.symm.trans he'))
      exact (h.fill t _ p e ht hl).put
    · exact (h.fill u x q e' hu he').write hj (hother u x q e' hne hu he').symm
  full k hk := by
    obtain ⟨hk, hne⟩ := hfull k hk
    obtain ⟨e', hp, hc⟩ := h.full k hk
    exact ⟨e', V.pushed_append hp _, hbuf ▸ hc.write hj hne.symm⟩
  bytes u x d bs hu hb := by
    rcases update_some_iff.1 hu with ⟨-, hy⟩ | ⟨-, hu⟩
    · obtain rfl := Option.some.inj hy
      rw [hl''] at hb
      cases hb
    · obtain ⟨e', hp, hg⟩ := h.bytes u x d bs hu hb
      exact ⟨e', V.pushed_append hp _, hg⟩

/-- A push publishes its finished element. -/
theorem publish {id : Nat} {c : Call} {l l' : ρ} {p : Nat} {e : Elem} (h : Contents V r tr s R)
    (ht : R t = some ⟨id, c, l⟩) (hl : V.fill l = some (p, e)) (hl' : V.fill l' = none)
    (hl'' : V.bytes l' = none) (hbuf : V.buffer s' = V.buffer s)
    (hpushed : V.pushed (tr ++ [ev]) p e) (hfull : ∀ k, V.full s' k → k = p ∨ V.full s k) :
    Contents V r (tr ++ [ev]) s' (Function.update R t (some ⟨id, c, l'⟩)) where
  fill u x q e' hu he' := by
    rw [hbuf]
    rcases update_some_iff.1 hu with ⟨-, hy⟩ | ⟨-, hu⟩
    · obtain rfl := Option.some.inj hy
      rw [hl'] at he'
      cases he'
    · exact h.fill u x q e' hu he'
  full k hk := by
    rw [hbuf]
    rcases hfull k hk with rfl | hk
    · exact ⟨e, hpushed, h.fill t _ k e ht hl⟩
    · obtain ⟨e', hp, hc⟩ := h.full k hk
      exact ⟨e', V.pushed_append hp _, hc⟩
  bytes u x d bs hu hb := by
    rcases update_some_iff.1 hu with ⟨-, hy⟩ | ⟨-, hu⟩
    · obtain rfl := Option.some.inj hy
      rw [hl''] at hb
      cases hb
    · obtain ⟨e', hp, hg⟩ := h.bytes u x d bs hu hb
      exact ⟨e', V.pushed_append hp _, hg⟩

theorem start_read {id : Nat} {c : Call} {l' : ρ} {d : Nat} (h : Contents V r tr s R)
    (hl' : V.bytes l' = some (d, [])) (hl'' : V.fill l' = none) (hbuf : V.buffer s' = V.buffer s)
    (hfull : ∀ k, V.full s' k → V.full s k) (hd : V.full s d) :
    Contents V r (tr ++ [ev]) s' (Function.update R t (some ⟨id, c, l'⟩)) := by
  refine h.same hbuf hfull (fun b p e hb he => ?_) (fun b d' bs hb hbs => ?_)
  · obtain rfl := Option.some.inj hb
    rw [hl''] at he
    cases he
  · obtain rfl := Option.some.inj hb
    obtain ⟨rfl, rfl⟩ := Prod.mk.inj (Option.some.inj (hl'.symm.trans hbs))
    obtain ⟨e, hp, -⟩ := h.full d hd
    exact ⟨e, hp, .nil⟩

theorem read_byte {id : Nat} {c : Call} {l l' : ρ} {d : Nat} {bs : List Byte}
    (h : Contents V r tr s R) (ht : R t = some ⟨id, c, l⟩) (hl : V.bytes l = some (d, bs))
    (hl' : V.bytes l' = some (d, bs ++ [V.buffer s (r.base d + bs.length)]))
    (hl'' : V.fill l' = none) (hlt : bs.length < r.objSize) (hd : V.full s d)
    (huniq : ∀ e e', V.pushed tr d e → V.pushed tr d e' → e = e') :
    Contents V r (tr ++ [ev]) s (Function.update R t (some ⟨id, c, l'⟩)) := by
  refine h.same rfl (fun _ hk => hk) (fun b p e hb he => ?_) (fun b d' bs' hb hbs => ?_)
  · obtain rfl := Option.some.inj hb
    rw [hl''] at he
    cases he
  · obtain rfl := Option.some.inj hb
    obtain ⟨rfl, rfl⟩ := Prod.mk.inj (Option.some.inj (hl'.symm.trans hbs))
    obtain ⟨e, hp, hg⟩ := h.bytes t _ d bs ht hl
    obtain ⟨e', hp', hc⟩ := h.full d hd
    obtain rfl := huniq e e' hp hp'
    exact ⟨e, hp, hg.snoc fun y hy => hc _ y hlt hy⟩

end Contents

end RingBuf
