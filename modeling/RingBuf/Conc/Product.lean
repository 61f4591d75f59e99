import RingBuf.Conc.Protocol

/-!
# Two protocols at once

A program may be checked against a second, small protocol that looks at one aspect of it only.
Together with the first one it forms a protocol again (`Proto.prod`), whose roles are pairs, and
what the moves of the first keep true is kept by the moves of both (`InductiveUnder.prod`).
-/

namespace Conc

variable {Op : Type} {Res : Op → Type} {Lbl Tid Call Ret σ ρ ρ' α : Type}

/-- The moves that both protocols have. -/
def Proto.prod (P : Proto Op Res Lbl Call Ret ρ) (P' : Proto Op Res Lbl Call Ret ρ') :
    Proto Op Res Lbl Call Ret (ρ × ρ') where
  start c := (P.start c, P'.start c)
  trans l o r l' := P.trans l.1 o r l'.1 ∧ P'.trans l.2 o r l'.2
  final l v := P.final l.1 v ∧ P'.final l.2 v
  entry j l := P.entry j l.1 ∧ P'.entry j l.2

variable {P : Proto Op Res Lbl Call Ret ρ} {P' : Proto Op Res Lbl Call Ret ρ'}
  {S : Sys Op Res Lbl Tid Call Ret σ} {s₀ : σ}

theorem Proto.wp_prod {p : Prog Op Res Lbl α} {Q : ρ → α → Prop} {Q' : ρ' → α → Prop} {l : ρ}
    {l' : ρ'} (h : P.wp p Q l) (h' : P'.wp p Q' l') :
    (P.prod P').wp p (fun x a => Q x.1 a ∧ Q' x.2 a) (l, l') := by
  induction p generalizing l l' with
  | ret a => exact ⟨h, h'⟩
  | op o k ih =>
    intro r
    obtain ⟨m, ht, hk⟩ := h r
    obtain ⟨m', ht', hk'⟩ := h' r
    exact ⟨(m, m'), ⟨ht, ht'⟩, ih r hk hk'⟩
  | jump j => exact ⟨h, h'⟩

theorem Proto.Follows.prod (h : P.Follows S) (h' : P'.Follows S) : (P.prod P').Follows S where
  body a := Proto.wp_prod (h.body a) (h'.body a)
  code j _ hl := Proto.wp_prod (h.code j _ hl.1) (h'.code j _ hl.2)

/-! ## Assertions about the first role -/

/-- The first roles of all threads. -/
def Roles.fst (R : Roles Tid Call (ρ × ρ')) : Roles Tid Call ρ :=
  fun t => (R t).map fun a => ⟨a.id, a.call, a.role.1⟩

theorem Roles.fst_some {R : Roles Tid Call (ρ × ρ')} {t : Tid} {a : Active Call (ρ × ρ')}
    (h : R t = some a) : R.fst t = some ⟨a.id, a.call, a.role.1⟩ := by
  rw [fst, h]
  rfl

theorem Roles.fst_none {R : Roles Tid Call (ρ × ρ')} {t : Tid} (h : R t = none) :
    R.fst t = none := by
  rw [fst, h]
  rfl

theorem Roles.call_fst (R : Roles Tid Call (ρ × ρ')) (t : Tid) :
    (R.fst t).map Active.call = (R t).map Active.call := by
  unfold fst
  cases R t <;> rfl

theorem Ids.fst {n : Nat} {tr : List (Event Op Res Tid Call Ret)} {R : Roles Tid Call (ρ × ρ')}
    (h : Ids n tr R) : Ids n tr R.fst where
  history := h.history
  active t a ha := by
    obtain ⟨b, hb, rfl⟩ := Option.map_eq_some_iff.1 ha
    exact h.active t b hb
  inj t u a b ha hb he := by
    obtain ⟨x, hx, rfl⟩ := Option.map_eq_some_iff.1 ha
    obtain ⟨y, hy, rfl⟩ := Option.map_eq_some_iff.1 hb
    exact h.inj t u x y hx hy he

variable [DecidableEq Tid]

theorem Roles.fst_update (R : Roles Tid Call (ρ × ρ')) (t : Tid)
    (y : Option (Active Call (ρ × ρ'))) : Roles.fst (Function.update R t y) =
      Function.update R.fst t (y.map fun a => ⟨a.id, a.call, a.role.1⟩) := by
  funext u
  by_cases hu : u = t
  · rw [hu, fst, Function.update_self, Function.update_self]
  · rw [fst, Function.update_of_ne hu, Function.update_of_ne hu]
    rfl

variable {A I : List (Event Op Res Tid Call Ret) → σ → Roles Tid Call ρ → Prop}

/-- What the moves of one protocol keep, the moves of both keep. -/
theorem InductiveUnder.prod (h : InductiveUnder P S s₀ A I) :
    InductiveUnder (P.prod P') S s₀ (fun tr s R => A tr s R.fst) fun tr s R => I tr s R.fst where
  init hA := h.init hA
  call hid hA hI ht ha hA' := by
    rw [Roles.fst_update] at hA' ⊢
    refine h.call hid.fst hA hI (Roles.fst_none ht) ?_ hA'
    simpa only [Roles.call_fst] using ha
  op hid hA hI ht hm he hA' := by
    rw [Roles.fst_update] at hA' ⊢
    exact h.op hid.fst hA hI (Roles.fst_some ht) hm.1 he hA'
  ret hid hA hI ht hf hA' := by
    rw [Roles.fst_update] at hA' ⊢
    exact h.ret hid.fst hA hI (Roles.fst_some ht) hf.1 hA'
  env hA hI he hA' := h.env hA hI he hA'

end Conc
