import RingBuf.Harness.Known
import Mathlib.Data.List.Perm.Subperm

/-!
# Each number is pushed at most once

A producer that holds a number pushes it until a push succeeds, so the pushes of one number are many
but at most one of them has an effect (`Pushes.unique`): as long as the number is held, only the
push in progress can have had it (`Pushes.mine`). So the ring never has more than `N` elements,
which is what makes its own results hold throughout (`Pushes.length_le`).
-/

namespace RingBuf

open Conc Bytes Word LawfulWord

namespace Harness

variable {Op : Type} {Res : Op → Type} {Lbl Tid Call Ret σ : Type} [DecidableEq Tid]
  {S : Sys Op Res Lbl Tid Call Ret σ} {s₀ : σ} {K : Kind Call Ret} {cs : Constants}
  {bound cap : Nat} {fits : Call → Act Elem → Prop}
  {returns : Call → Ret → Option (Act Elem) → Prop}
  {effects : List (Event Op Res Tid Call Ret) → List (Nat × Act Elem)}
  {past past' : List (Event Op Res Tid Call Ret)} {e : Event Op Res Tid Call Ret}
  {tr : List (TestEv Tid Call Ret)} {w w' : TestWorld Op Res Lbl Tid Call Ret σ}
  {R : Roles Tid Job (Role Ret)} {t : Tid} {id i : Nat} {j : Job} {k : SizeT} {bs : List Byte}
  {l l' : Role Ret} {a : Act Elem} {v : Ret}

/-- Call `i` pushes an object with number `k`. -/
def PushOf (K : Kind Call Ret) (past : List (Event Op Res Tid Call Ret)) (i : Nat) (k : SizeT) :
    Prop :=
  ∃ t bs, .call t i (K.push bs) ∈ past ∧ Intact k bs

omit [DecidableEq Tid] in
theorem PushOf.snoc (h : PushOf K (past ++ [e]) i k) :
    PushOf K past i k ∨ ∃ t bs, e = .call t i (K.push bs) ∧ Intact k bs := by
  obtain ⟨t, bs, hmem, hbs⟩ := h
  rcases List.mem_append.1 hmem with hmem | hmem
  · exact .inl ⟨t, bs, hmem, hbs⟩
  · exact .inr ⟨t, bs, (List.mem_singleton.1 hmem).symm, hbs⟩

/-- The calls that have been made on the ring, and which of them had an effect. -/
structure Pushes (K : Kind Call Ret) (cs : Constants) (cap : Nat) (fits : Call → Act Elem → Prop)
    (returns : Call → Ret → Option (Act Elem) → Prop)
    (effects : List (Event Op Res Tid Call Ret) → List (Nat × Act Elem))
    (tr : List (TestEv Tid Call Ret)) (w : TestWorld Op Res Lbl Tid Call Ret σ)
    (R : Roles Tid Job (Role Ret)) : Prop where
  lin : Linearized cap [] fits returns w.past (effects w.past)
  made : ∀ {t i a}, .call t i a ∈ w.past →
    (∃ k bs, a = K.push bs ∧ Intact k bs ∧ k < cs.n ∧ ∃ d ∈ fetches .pushed tr, d.pos = k) ∨
      a = K.pop sizeofObj
  /-- At most one push of a number has an effect. -/
  unique : ∀ {i i' k a a'}, (i, a) ∈ effects w.past → (i', a') ∈ effects w.past →
    PushOf K w.past i k → PushOf K w.past i' k → i = i'
  /-- While a number is held, that push is in progress. -/
  mine : ∀ {t x k i a}, R t = some x → x.role.held = some k → PushOf K w.past i k →
    (i, a) ∈ effects w.past → ∃ b p, w.object.thread t = .run i b p

/-- **The ring has at most `N` elements**, over the whole run. -/
theorem Pushes.length_le (hK : Serves S s₀ K bound cap fits returns effects)
    (h : Pushes K cs cap fits returns effects tr w R) :
    (puts ((effects w.past).map Prod.snd)).length ≤ toNat cs.n := by
  -- The effects that put something in, each with the number of its object.
  have hlen : (puts ((effects w.past).map Prod.snd)).length =
      ((effects w.past).filter fun x => x.2.put?.isSome).length := by
    rw [puts, List.filterMap_map, List.length_filterMap_eq_countP, List.countP_eq_length_filter]
    rfl
  have hnum : ∀ x : Nat × Act Elem, ∃ k : SizeT,
      x ∈ (effects w.past).filter (fun x => x.2.put?.isSome) →
        PushOf K w.past x.1 k ∧ k < cs.n := by
    rintro ⟨i, a⟩
    by_cases hx : (i, a) ∈ (effects w.past).filter (fun x => x.2.put?.isSome)
    · obtain ⟨hmem, hput⟩ := List.mem_filter.1 hx
      obtain ⟨t, b, hb, hfits⟩ := h.lin.called hmem
      rcases h.made hb with ⟨k, bs, rfl, hbs, hk, -⟩ | rfl
      · exact ⟨k, fun _ => ⟨⟨t, bs, hb, hbs⟩, hk⟩⟩
      · obtain ⟨k, e, rfl⟩ := hK.pop_fits hfits
        cases hput
    · exact ⟨0, fun hx' => absurd hx' hx⟩
  obtain ⟨f, hf⟩ := Classical.axiomOfChoice hnum
  have hnodup : (((effects w.past).filter fun x => x.2.put?.isSome).map
      fun x => toNat (f x)).Nodup := by
    refine List.Nodup.map_on (fun x hx y hy hxy => ?_) ((List.Nodup.of_map _ h.lin.once).filter _)
    have hsame : f x = f y := toNat_inj hxy
    have hid := h.unique (List.mem_filter.1 hx).1 (List.mem_filter.1 hy).1 (hf x hx).1
      (hsame ▸ (hf y hy).1)
    exact List.inj_on_of_nodup_map h.lin.once (List.mem_filter.1 hx).1 (List.mem_filter.1 hy).1 hid
  have hsub : (((effects w.past).filter fun x => x.2.put?.isSome).map fun x => toNat (f x)) ⊆
      List.range (toNat cs.n) := by
    intro m hm
    obtain ⟨x, hx, rfl⟩ := List.mem_map.1 hm
    exact List.mem_range.2 (hf x hx).2
  have hle := (hnodup.subperm hsub).length_le
  rwa [List.length_map, List.length_range, ← hlen] at hle

/-! ## Steps -/

/-- A step that leaves the ring alone, and after which a thread holds a number only if it did before
or nobody has pushed it. -/
theorem Pushes.same {e : TestEv Tid Call Ret} {y : Option (Active Job (Role Ret))}
    (h : Pushes K cs cap fits returns effects tr w R) (hpast : w'.past = w.past)
    (hobject : w'.object = w.object)
    (hheld : ∀ x k, y = some x → x.role.held = some k →
      (∃ x', R t = some x' ∧ x'.role.held = some k) ∨ ∀ i, ¬ PushOf K w.past i k) :
    Pushes K cs cap fits returns effects (tr ++ [e]) w' (Function.update R t y) where
  lin := by
    rw [hpast]
    exact h.lin
  made hmem := by
    rw [hpast] at hmem
    refine (h.made hmem).imp_left ?_
    intro ⟨k, bs, ha, hbs, hk, d, hd, hpos⟩
    exact ⟨k, bs, ha, hbs, hk, d, mem_claims_append hd _, hpos⟩
  unique := by
    rw [hpast]
    exact h.unique
  mine hR hk hp ha := by
    rw [hpast] at hp ha
    rw [hobject]
    rcases update_some_iff.1 hR with ⟨rfl, hy⟩ | ⟨-, hR⟩
    · rcases hheld _ _ hy hk with ⟨x', hx', hk'⟩ | hno
      · exact h.mine hx' hk' hp ha
      · exact absurd hp (hno _)
    · exact h.mine hR hk hp ha

theorem Pushes.new (hK : Serves S s₀ K bound cap fits returns effects)
    (h : Pushes K cs cap fits returns effects tr w R) (hknown : Known cs tr w.own R)
    (hlt : (fetches .pushed tr).length < 2 ^ 64) (i : Nat) :
    ¬ PushOf K w.past i (w.own .pushed) := by
  intro ⟨u, bs, hmem, hbs⟩
  rcases h.made hmem with ⟨k, bs', hpush, hbs', -, d, hd, hpos⟩ | hpop
  · obtain rfl := hK.push_inj hpush
    exact hknown.fresh hlt d hd (hpos.trans (hbs'.inj hbs))
  · exact hK.apart hpop

theorem Pushes.make (hK : Serves S s₀ K bound cap fits returns effects)
    (h : Pushes K cs cap fits returns effects tr w R) (hu : Using S s₀ (Role.inside K) w R)
    (ht : R t = some ⟨id, j, l⟩) {b : Call} (hl : Role.inside K l = none)
    (hl' : l'.held = l.held) {c : Config Op Res Lbl Tid Call Ret σ}
    (hs : Step S w.object (some (.call t w.object.fresh b)) c)
    (hb : (∃ k bs, b = K.push bs ∧ Intact k bs ∧ k < cs.n ∧ ∃ d ∈ fetches .pushed tr, d.pos = k) ∨
      b = K.pop sizeofObj)
    (hlin : Linearized cap [] fits returns (w.past ++ [.call t w.object.fresh b])
      (effects (w.past ++ [.call t w.object.fresh b]))) :
    Pushes K cs cap fits returns effects (tr ++ [.op t id j (.make b) ()])
      { w with object := c, past := w.past ++ [.call t w.object.fresh b] }
      (Function.update R t (some ⟨id, j, l'⟩)) := by
  -- The new call has not had an effect.
  have hold : ∀ {i k a}, (i, a) ∈ effects w.past →
      PushOf K (w.past ++ [.call t w.object.fresh b]) i k → PushOf K w.past i k := by
    intro i k a ha hp
    refine hp.snoc.resolve_right ?_
    intro ⟨u, bs, he, _⟩
    cases he
    exact Nat.lt_irrefl _ (effect_lt hu.run h.lin ha)
  refine ⟨hlin, fun {u i b'} hmem => ?_, ?_, fun {u x k i a} hx hk hp ha => ?_⟩
  · have hmade : (∃ k bs, b' = K.push bs ∧ Intact k bs ∧ k < cs.n ∧
        ∃ d ∈ fetches .pushed tr, d.pos = k) ∨ b' = K.pop sizeofObj := by
      rcases List.mem_append.1 hmem with hmem | hmem
      · exact h.made hmem
      · cases List.mem_singleton.1 hmem
        exact hb
    refine hmade.imp_left ?_
    intro ⟨k, bs, hb', hbs, hk, d, hd, hpos⟩
    exact ⟨k, bs, hb', hbs, hk, d, mem_claims_append hd _, hpos⟩
  · intro i i' k a a' ha ha' hp hp'
    rw [hK.call] at ha ha'
    exact h.unique ha ha' (hold ha hp) (hold ha' hp')
  · rw [hK.call] at ha
    rcases update_some_iff.1 hx with ⟨rfl, hy⟩ | ⟨hne, hx⟩
    · obtain rfl := Option.some.inj hy
      obtain ⟨b', p, hrun⟩ := h.mine ht (hl' ▸ hk) (hold ha hp) ha
      rw [hu.idle ht hl] at hrun
      cases hrun
    · obtain ⟨b', p, hrun⟩ := h.mine hx hk (hold ha hp) ha
      exact ⟨b', p, (hs.call?_call.2 u hne).trans hrun⟩

theorem Pushes.await (hK : Serves S s₀ K bound cap fits returns effects)
    (h : Pushes K cs cap fits returns effects tr w R)
    (ht : R t = some ⟨id, j, l⟩) {b : Call} {c : Config Op Res Lbl Tid Call Ret σ}
    (hs : Step S w.object (some (.ret t i b v)) c)
    (hl' : ∀ k, l'.held = some k → l.held = some k ∧ ∀ a, (i, a) ∉ effects w.past)
    (hlin : Linearized cap [] fits returns (w.past ++ [.ret t i b v])
      (effects (w.past ++ [.ret t i b v]))) :
    Pushes K cs cap fits returns effects (tr ++ [.op t id j .await v])
      { w with object := c, past := w.past ++ [.ret t i b v] }
      (Function.update R t (some ⟨id, j, l'⟩)) := by
  have hold : ∀ {i' k}, PushOf K (w.past ++ [.ret t i b v]) i' k → PushOf K w.past i' k := by
    intro i' k hp
    refine hp.snoc.resolve_right ?_
    intro ⟨u, bs, he, _⟩
    cases he
  refine ⟨hlin, fun {u i b'} hmem => ?_, ?_, fun {u x k i' a} hx hk hp ha => ?_⟩
  · have hmem := (List.mem_append.1 hmem).resolve_right (by simp)
    refine (h.made hmem).imp_left ?_
    intro ⟨k, bs, hb, hbs, hk, d, hd, hpos⟩
    exact ⟨k, bs, hb, hbs, hk, d, mem_claims_append hd _, hpos⟩
  · intro i₁ i₂ k a₁ a₂ h₁ h₂ hp₁ hp₂
    rw [hK.ret] at h₁ h₂
    exact h.unique h₁ h₂ (hold hp₁) (hold hp₂)
  · rw [hK.ret] at ha
    rcases update_some_iff.1 hx with ⟨rfl, hy⟩ | ⟨hne, hx⟩
    · obtain rfl := Option.some.inj hy
      -- The push that has just failed was the only one that could have had an effect.
      obtain ⟨hk, hno⟩ := hl' k hk
      obtain ⟨b', p, hrun⟩ := h.mine ht hk (hold hp) ha
      cases hs with
      | ret hret =>
        rw [hret] at hrun
        cases hrun
        exact absurd ha (hno a)
    · obtain ⟨b', p, hrun⟩ := h.mine hx hk (hold hp) ha
      exact ⟨b', p, (hs.call?_ret.2 u hne).trans hrun⟩

theorem Pushes.inner (hK : Serves S s₀ K bound cap fits returns effects)
    (h : Pushes K cs cap fits returns effects tr w R) (hu : Using S s₀ (Role.inside K) w R)
    (hknown : Known cs tr w.own R) (hlt : (fetches .pushed tr).length ≤ 2 ^ 64)
    {e : Option (Event Op Res Tid Call Ret)} {c : Config Op Res Lbl Tid Call Ret σ}
    (hs : Step S w.object e c) (he : Inner e)
    (hlin : Linearized cap [] fits returns (w.past ++ e.toList) (effects (w.past ++ e.toList))) :
    Pushes K cs cap fits returns effects tr { w with object := c, past := w.past ++ e.toList }
      R := by
  have hcalls : ∀ {u i b}, .call u i b ∈ w.past ++ e.toList → .call u i b ∈ w.past := by
    intro u i b hmem
    refine (List.mem_append.1 hmem).resolve_right fun hmem => ?_
    cases e with
    | none => cases hmem
    | some e =>
      obtain rfl := List.mem_singleton.1 hmem
      exact he
  have hold : ∀ {i k}, PushOf K (w.past ++ e.toList) i k → PushOf K w.past i k := by
    intro i k ⟨u, bs, hmem, hbs⟩
    exact ⟨u, bs, hcalls hmem, hbs⟩
  -- A push that has just had its effect belongs to the thread that holds its number.
  have hnew : ∀ {i k a}, (i, a) ∈ effects (w.past ++ e.toList) → PushOf K w.past i k →
      (i, a) ∈ effects w.past ∨ ∃ u x b p, R u = some x ∧ x.role.held = some k ∧
        w.object.thread u = .run i b p := by
    intro i k a ha hp
    cases e with
    | none =>
      rw [Option.toList_none, List.append_nil] at ha
      exact .inl ha
    | some e =>
      cases hs with
      | call _ _ => exact he.elim
      | ret _ => exact he.elim
      | @op u i' b o q r s' hrun _ =>
        rcases hK.op w.past u i' b o r with heq | ⟨act, heq⟩
        · exact .inl (heq ▸ ha)
        · have ha' : (i, a) ∈ effects w.past ++ [(i', act)] := heq ▸ ha
          rcases List.mem_append.1 ha' with ha' | ha'
          · exact .inl ha'
          · cases List.mem_singleton.1 ha'
            right
            obtain ⟨x, hx, hin⟩ := hu.role hrun
            obtain ⟨u', bs, hmem, hbs⟩ := hp
            obtain ⟨rfl, rfl⟩ := hu.run.call_unique hmem (hu.run.orderly.called hrun)
            refine ⟨u', x, _, _, hx, ?_, hrun⟩
            have hrole := hknown.role u' x hx
            cases hl : x.role with
            | pushing k' bs' =>
              rw [hl] at hin hrole
              obtain rfl := hK.push_inj (Option.some.inj hin)
              cases hj : x.call with
              | producer o =>
                rw [hj] at hrole
                rw [Role.held, hrole.2.inj hbs]
              | consumer =>
                rw [hj] at hrole
                exact hrole.elim
            | popping =>
              rw [hl] at hin
              exact absurd (Option.some.inj hin).symm hK.apart
            | _ =>
              rw [hl] at hin
              cases hin
  have hsame : ∀ {i k a}, (i, a) ∈ effects (w.past ++ e.toList) → PushOf K w.past i k →
      ∀ {u x}, R u = some x → x.role.held = some k → ∃ b p, w.object.thread u = .run i b p := by
    intro i k a ha hp u x hx hk
    rcases hnew ha hp with ha | ⟨u', x', b, p, hx', hk', hrun⟩
    · exact h.mine hx hk hp ha
    · obtain rfl := hknown.held_inj hlt hx hx' hk hk'
      exact ⟨b, p, hrun⟩
  refine ⟨hlin, fun hmem => h.made (hcalls hmem), ?_, fun {u x k i a} hx hk hp ha => ?_⟩
  · intro i i' k a a' ha ha' hp hp'
    rcases hnew ha (hold hp) with hi | ⟨u, x, b, p, hx, hk, hrun⟩
    · rcases hnew ha' (hold hp') with hi' | ⟨u, x, b, p, hx, hk, hrun⟩
      · exact h.unique hi hi' (hold hp) (hold hp')
      · obtain ⟨b', p', hrun'⟩ := h.mine hx hk (hold hp) hi
        rw [hrun] at hrun'
        cases hrun'
        rfl
    · obtain ⟨b', p', hrun'⟩ := hsame ha' (hold hp') hx hk
      rw [hrun] at hrun'
      cases hrun'
      rfl
  · obtain ⟨b, p, hrun⟩ := hsame ha (hold hp) hx hk
    obtain ⟨p', hrun'⟩ := hs.stays he hrun
    exact ⟨b, p', hrun'⟩

/-! ## Every run -/

theorem Pushes.next (hK : Serves S s₀ K bound cap fits returns effects)
    (hn : toNat cs.n + 1 < bound) (h : Pushes K cs cap fits returns effects tr w R)
    (e : Option (Event Op Res Tid Call Ret)) :
    (puts ((effects (w.past ++ e.toList)).map Prod.snd)).length < bound := by
  have hle := h.length_le hK
  cases e with
  | none =>
    rw [Option.toList_none, List.append_nil]
    omega
  | some e =>
    show (puts ((effects (w.past ++ [e])).map Prod.snd)).length < bound
    cases e with
    | call t i b =>
      rw [hK.call]
      omega
    | ret t i b v =>
      rw [hK.ret]
      omega
    | op t i b o r =>
      rcases hK.op w.past t i b o r with heq | ⟨act, heq⟩
      · rw [heq]
        omega
      · have hone : (puts [act]).length ≤ 1 := List.length_filterMap_le ..
        have happ : puts ((effects w.past ++ [(i, act)]).map Prod.snd) =
            puts ((effects w.past).map Prod.snd) ++ puts [act] := by
          rw [List.map_append, puts, List.filterMap_append]
          rfl
        rw [heq, happ, List.length_append]
        omega

/-- **No number is pushed twice**, as long as `pushed` has not wrapped. -/
theorem pushes_inductive (hK : Serves S s₀ K bound cap fits returns effects)
    (hn : toNat cs.n + 1 < bound) {allow : (Tid → Option Job) → Tid → Job → Prop} :
    InductiveUnder (proto K cs) (sys K cs S allow) (.start s₀ fun _ => 0)
      (fun tr w R => (fetches .pushed tr).length ≤ 2 ^ 64 ∧
        Using S s₀ (Role.inside K) w R ∧ Known cs tr w.own R)
      fun tr w R => Pushes K cs cap fits returns effects tr w R where
  init hA := by
    have hnil :
        effects (World.start s₀ fun _ => 0 : TestWorld Op Res Lbl Tid Call Ret σ).past = [] :=
      hK.nil
    refine ⟨hK.linearized hA.2.1.run ?_, ?_, ?_, ?_⟩
    · rw [hnil]
      exact Nat.lt_of_le_of_lt (Nat.zero_le _) hn
    · intro t i a hmem
      cases hmem
    · intro i i' k a a' ha
      rw [hnil] at ha
      cases ha
    · intro t x k i a hx
      cases hx
  call {tr w R t id j} _ _ h _ _ _ := by
    refine h.same rfl rfl fun x k hx hk => ?_
    obtain rfl := Option.some.inj hx
    cases j <;> cases hk
  op {n tr w R t id j l o x l' w'} _ hA h ht hm he hA' := by
    obtain ⟨-, hu, hknown⟩ := hA
    obtain ⟨hlt, hu', -⟩ := hA'
    cases o with
    | own o =>
      obtain ⟨s, hs, rfl⟩ := he
      refine h.same rfl rfl fun y k hy hk => ?_
      obtain rfl := Option.some.inj hy
      rcases hm.held hk with hk | hk
      · exact .inl ⟨_, ht, hk⟩
      · right
        rw [fetches, claims_snoc_some hk, List.length_append, List.length_singleton] at hlt
        have hnew := h.new hK hknown hlt
        cases o with
        | fetchAdd c =>
          simp only [fetched] at hk
          split at hk
          case isTrue hc =>
            obtain rfl := Option.some.inj hk
            obtain ⟨rfl, -⟩ := hs
            exact hc ▸ hnew
          case isFalse => cases hk
        | stamp c i => cases hk
        | abort => cases hk
    | make b =>
      obtain ⟨c, hs, rfl⟩ := he
      have hlin := hK.linearized hu'.run (h.next hK hn (some (.call t w.object.fresh b)))
      cases hm with
      | @push k bs =>
        obtain ⟨d, hd, -, hpos⟩ := hknown.held (k := k) ht rfl
        have hrole := hknown.role t _ ht
        cases j with
        | producer o =>
          have hheld : (Role.pushing k bs : Role Ret).held = (Role.filled k bs : Role Ret).held :=
            rfl
          exact h.make hK hu ht rfl hheld hs
            (.inl ⟨k, bs, rfl, hrole.2, hrole.1, d, hd, hpos⟩) hlin
        | consumer => exact hrole.elim
      | pop =>
        have hheld : (Role.popping : Role Ret).held = (Role.claimed : Role Ret).held := rfl
        exact h.make hK hu ht rfl hheld hs (.inr rfl) hlin
    | await =>
      obtain ⟨i, b, c, hs, rfl⟩ := he
      have hbound := h.next hK hn (some (.ret t i b x))
      have hlin := hK.linearized hu'.run hbound
      refine h.await hK ht hs (fun k hk => ?_) hlin
      cases hm with
      | @pushAgain k' bs _ hv =>
        refine ⟨hk, fun a ha => ?_⟩
        have hret : .ret t i b x ∈ w.past ++ [.ret t i b x] := by simp
        -- The call is the push that the thread waits for.
        obtain rfl : b = K.push bs := by
          cases hs with
          | ret hrun =>
            obtain ⟨y, hy, hin⟩ := hu.role hrun
            obtain rfl := Option.some.inj (ht.symm.trans hy)
            exact (Option.some.inj hin).symm
        refine hK.no_effect hu'.run hlin hbound hret hv a ?_
        rw [hK.ret]
        exact ha
      | pushed _ => cases hk
      | popAgain _ => cases hk
      | popped _ => cases hk
  ret _ _ h _ _ _ := by
    refine h.same rfl rfl fun x k hx => ?_
    cases hx
  env {tr w R w'} hA h he hA' := by
    obtain ⟨hlt, hu, hknown⟩ := hA
    obtain ⟨e, c, hs, hin, rfl⟩ := he
    exact h.inner hK hu hknown hlt hs hin (hK.linearized hA'.2.1.run (h.next hK hn e))

end Harness

end RingBuf
