import RingBuf.Block.Fifo
import RingBuf.Setup.Code

/-!
# Leaving a blocking ring

The mutex and the condition variables lie in the shared memory, and `del_block_buf` destroys them,
whoever else may still use them. Here the pushes and pops of all threads interleave with deletions
(`sys`). The mutex protects everybody as long as all pushes and pops come before the first
deletion (`leave_fine`); one deletion too early is enough to break the others (`leave_breaks`).
-/

namespace RingBuf

open Conc Word Setup

namespace Block.Leave

/-! ## The system -/

/-- What a thread may call. -/
inductive Call
  | use (c : Block.Call)
  | del

/-- The operations. -/
inductive Op
  | ring (o : Block.Op)
  | destroy (x : Sync)

/-- What an operation answers. -/
@[reducible] def Op.Res : Op → Type
  | .ring o => o.Res
  | .destroy _ => Unit

/-- The ring, and which of its objects are initialised and not destroyed. -/
structure Shared (Tid : Type) where
  mem : BMem Tid
  alive : Sync → Bool

/-- A ring just made by `get_block_buf`. -/
def made {Tid : Type} (m : BMem Tid) : Shared Tid := ⟨Block.getBlockBuf m, fun _ => true⟩

/-- The object behind a condition. -/
def object : Cond → Sync
  | .writeable => .writeable
  | .readable => .readable

/-- The objects an operation acts on. -/
def objects : Block.Op → List Sync
  | .lock | .unlock => [.mtx]
  | .sleep c | .relock c => [object c, .mtx]
  | .signal c => [object c]
  | _ => []

/-- The effect of an operation. What an operation does to an object that is not initialised, or
is destroyed, is undefined. -/
def Exec {Tid : Type} [DecidableEq Tid] (t : Tid) :
    (o : Op) → Shared Tid → o.Res → Shared Tid → Prop
  | .ring o, s, x, s' => (∀ y ∈ objects o, s.alive y = true) →
    Block.Exec t o s.mem x s'.mem ∧ s'.alive = s.alive
  | .destroy x, s, _, s' => s' = { s with alive := Function.update s.alive x false }

/-- A program on a ring that may be deleted. -/
abbrev LeaveProg (α : Type) := Prog Op Op.Res Block.Call α

/-- A push or pop. -/
def use : BlockProg Ret → LeaveProg (Option Ret)
  | .ret v => .ret (some v)
  | .op o k => .op (.ring o) fun x => use (k x)
  | .jump l => .jump l

abbrev destroy (x : Sync) : LeaveProg Unit := .op (.destroy x) .ret

/-- `del_block_buf`, without the lines that concern only the process itself (`del_destroys`). -/
def delBlockBuf : LeaveProg (Option Ret) := do
  destroy .mtx
  destroy .writeable
  destroy .readable
  pure none

/-- Any number of threads, each of which pushes, pops and deletes the ring as it likes. -/
def sys (r : Ring SizeT) (Tid : Type) [DecidableEq Tid] :
    Sys Op Op.Res Block.Call Tid Call (Option Ret) (Shared Tid) where
  exec := Exec
  env s s' := Env s.mem s'.mem ∧ s'.alive = s.alive
  body
    | .use c => use (body r c)
    | .del => delBlockBuf
  code l := use (code r l)
  allow _ _ _ := True

/-- The objects that the calls of a history destroy. -/
def destroyed {Path : Type} (ops : List ((o : SysOp Path) × o.Res)) : List Sync :=
  ops.filterMap fun
    | ⟨.syncDestroy _ x, _⟩ => some x
    | _ => none

/-- `del_block_buf` of a process destroys these objects, in this order, and no others. -/
theorem del_destroys {Path : Type} [DecidableEq Path] (env : Setup.Env) (p : Addr) (s : Os Path) :
    destroyed ((Setup.delBlockBuf (some p)).log (Setup.exec env) s) =
      [.mtx, .writeable, .readable] := by
  have hrelease : ∀ s : Os Path,
      destroyed ((release Field.blockOffset p).log (Setup.exec env) s) = [] := by
    intro s
    simp only [release, Prog.op_bind, Prog.ret_bind, Prog.log, destroyed]
    split
    · rfl
    · split <;> rfl
  show .mtx :: .writeable :: .readable :: destroyed ((release Field.blockOffset p).log _ _) = _
  rw [hrelease]

/-! ## What the calls rely on -/

variable {Tid : Type}

/-- An event of the system. -/
abbrev Ev (Tid : Type) := Event Op Op.Res Tid Call (Option Ret)

/-- Another thread than `t` holds the mutex, or a thread waits on the condition. -/
def Busy (m : BMem Tid) (t : Tid) : Sync → Prop
  | .mtx => ∃ u, u ≠ t ∧ m.mtx.owner = some u
  | .writeable => ∃ u, m.mtx.asleep u = some .writeable
  | .readable => ∃ u, m.mtx.asleep u = some .readable

/-- A push or pop acts on objects that are initialised and not destroyed, and nobody uses an
object that is destroyed. -/
def Fine (s : Shared Tid) : Ev Tid → Prop
  | .op _ _ _ (.ring o) _ => ∀ x ∈ objects o, s.alive x = true
  | .op t _ _ (.destroy x) _ => ¬ Busy s.mem t x
  | _ => True

/-- No process makes a call after it has deleted the ring. -/
def KeepsOut {Pid : Type} (pid : Tid → Pid) (tr : List (Ev Tid)) : Prop :=
  tr.Pairwise fun e e' => ∀ t i u j c, e = .call t i .del → e' = .call u j c → pid t ≠ pid u

/-- One process leaving the ring does not break the others. -/
def LeavesWell {Pid : Type} [DecidableEq Tid] (r : Ring SizeT) (m₀ : BMem Tid) (pid : Tid → Pid) :
    Prop :=
  ∀ tr c e c', Run (sys r Tid) (.start (made m₀)) tr c → Step (sys r Tid) c (some e) c' →
    KeepsOut pid (tr ++ [e]) → Fine c.shared e

/-! ## When it goes well -/

/-- The event destroys an object. -/
def Destroys (e : Ev Tid) : Prop := ∃ t id a x, e = .op t id a (.destroy x) ()

/-- The deletion of the ring has begun. -/
def Begun (tr : List (Ev Tid)) : Prop := ∃ e ∈ tr, Destroys e

/-- Every push and pop so far that is not too large has released the mutex for good. -/
def Released (r : Ring SizeT) (tr : List (Ev Tid)) : Prop :=
  ∀ t id c, .call t id (.use c) ∈ tr → c.size ≤ r.objSize →
    .op t id (.use c) (.ring .unlock) () ∈ tr

/-- A push or pop that is not too large starts before the deletion of the ring begins, and every
one has released the mutex by then. -/
def InTime (r : Ring SizeT) (tr : List (Ev Tid)) : Ev Tid → Prop
  | .call _ _ (.use c) => c.size ≤ r.objSize → ¬ Begun tr
  | .op _ _ _ (.destroy _) _ => Released r tr
  | _ => True

/-- Every step is in time. -/
def Orderly (r : Ring SizeT) (tr : List (Ev Tid)) : Prop :=
  ∀ tr₁ e tr₂, tr = tr₁ ++ e :: tr₂ → InTime r tr₁ e

variable {r : Ring SizeT} {tr : List (Ev Tid)} {e : Ev Tid}

theorem Orderly.init (h : Orderly r (tr ++ [e])) : Orderly r tr := by
  intro tr₁ e' tr₂ htr
  refine h tr₁ e' (tr₂ ++ [e]) ?_
  rw [htr, List.append_assoc]
  rfl

theorem Orderly.last (h : Orderly r (tr ++ [e])) : InTime r tr e := h tr e [] rfl

theorem Orderly.nil : Orderly r ([] : List (Ev Tid)) := by
  intro tr₁ e tr₂ htr
  simp at htr

theorem Orderly.snoc (h : Orderly r tr) (he : InTime r tr e) : Orderly r (tr ++ [e]) := by
  intro tr₁ e' tr₂ htr
  rcases List.eq_nil_or_concat tr₂ with rfl | ⟨tr₂, e₂, rfl⟩
  · obtain ⟨rfl, htr⟩ := List.append_inj' htr rfl
    obtain rfl : e = e' := by simpa using htr
    exact he
  · have htr' : tr ++ [e] = (tr₁ ++ e' :: tr₂) ++ [e₂] := by simpa using htr
    obtain ⟨rfl, -⟩ := List.append_inj' htr' rfl
    exact h tr₁ e' tr₂ rfl

theorem begun_snoc : Begun (tr ++ [e]) ↔ Begun tr ∨ Destroys e := by
  simp [Begun, or_and_right, exists_or]

/-- As long as nothing is destroyed, every step is in time. -/
theorem orderly_of_not_begun (h : ¬ Begun tr) : Orderly r tr := by
  intro tr₁ e tr₂ htr
  cases e with
  | call t id a =>
    cases a with
    | use c =>
      intro _ ⟨e', he', hd⟩
      exact h ⟨e', htr ▸ List.mem_append_left _ he', hd⟩
    | del => trivial
  | op t id a o x =>
    cases o with
    | ring o => trivial
    | destroy y => exact absurd ⟨_, htr ▸ by simp, t, id, a, y, rfl⟩ h
  | ret t id a v => trivial

/-! ## The protocol -/

/-- Where a thread stands: inside a push or pop, or with objects still to be destroyed. -/
inductive Role
  | use (l : Block.Role)
  | del (xs : List Sync)

/-- The moves. -/
inductive Trans (r : Ring SizeT) : Role → (o : Op) → o.Res → Role → Prop
  | ring {l : Block.Role} {o : Block.Op} {x : o.Res} {l' : Block.Role} : Block.Trans r l o x l' →
      Trans r (.use l) (.ring o) x (.use l')
  | destroy {x xs} : Trans r (.del (x :: xs)) (.destroy x) () (.del xs)

/-- The protocol of a ring that may be deleted. -/
def proto (r : Ring SizeT) : Proto Op Op.Res Block.Call Call (Option Ret) Role where
  start
    | .use c => .use (.start c)
    | .del => .del [.mtx, .writeable, .readable]
  trans := Trans r
  final
    | .use l, some v => (Block.proto r).final l v
    | .del xs, none => xs = []
    | _, _ => False
  entry c l := l = .use (.locked c)

theorem wp_use {p : BlockProg Ret} {l : Block.Role}
    (h : (Block.proto r).wp p (Block.proto r).final l) :
    (proto r).wp (use p) (proto r).final (.use l) := by
  induction p generalizing l with
  | ret v => exact h
  | op o k ih =>
    intro x
    obtain ⟨l', hm, hk⟩ := h x
    exact ⟨.use l', .ring hm, ih x hk⟩
  | jump c =>
    obtain rfl : l = .locked c := h
    exact rfl

theorem follows (r : Ring SizeT) (Tid : Type) [DecidableEq Tid] :
    (proto r).Follows (sys r Tid) where
  body
    | .use c => wp_use ((Block.follows r Tid).body c)
    | .del => fun _ => ⟨_, .destroy, fun _ => ⟨_, .destroy, fun _ => ⟨_, .destroy, rfl⟩⟩⟩
  code c l h := by
    obtain rfl : l = .use (.locked c) := h
    exact wp_use ((Block.follows r Tid).code c _ rfl)

/-! ## The pushes and pops among the calls -/

/-- The push or pop that a thread is in. -/
def user : Option (Active Call Role) → Option (Active Block.Call Block.Role)
  | some ⟨id, .use c, .use l⟩ => some ⟨id, c, l⟩
  | _ => none

/-- The threads that push or pop. -/
def users (R : Roles Tid Call Role) : BRoles Tid := fun t => user (R t)

/-- The role is one of the call. -/
def Role.Of (n : Nat) : Call → Role → Prop
  | .use c, .use l => l.Of n c
  | .del, .del _ => True
  | _, _ => False

/-- The role will use the ring no more. -/
def Past (n : Nat) : Block.Role → Prop
  | .start c => n < c.size
  | .done _ _ _ _ => True
  | _ => False

/-- What a release of the mutex at the end of a call takes. -/
def unlocks : (o : Op) → o.Res → Option Unit
  | .ring .unlock, _ => some ()
  | _, _ => none

def unlocked : Role → Option Unit
  | .use (.done _ _ _ _) => some ()
  | _ => none

variable {R : Roles Tid Call Role} {t : Tid} {id : Nat} {a : Call} {c : Block.Call} {n : Nat}
  {l l' : Block.Role} {o : Block.Op} {x : o.Res} {s s' : Shared Tid}

theorem users_update [DecidableEq Tid] {y : Option (Active Call Role)} :
    users (Function.update R t y) = Function.update (users R) t (user y) := by
  funext u
  by_cases hu : u = t
  · subst hu
    simp [users]
  · simp [users, hu]

theorem exists_of_users {b : Active Block.Call Block.Role} (h : users R t = some b) :
    R t = some ⟨b.id, .use b.call, .use b.role⟩ := by
  unfold users at h
  cases hR : R t with
  | none =>
    rw [hR] at h
    cases h
  | some d =>
    obtain ⟨id, a, l⟩ := d
    rw [hR] at h
    cases a <;> cases l <;> cases h
    rfl

theorem Past.free (h : Past n l) : l.holds = false ∧ l.waits = none := by
  cases l with
  | start c => exact ⟨rfl, rfl⟩
  | done c p q bs => exact ⟨rfl, rfl⟩
  | _ => exact h.elim

theorem Past.not_trans (h : Past r.objSize l) : ¬ Block.Trans r l o x l' := by
  intro hm
  cases hm with
  | lock hsize => exact Nat.not_lt.2 hsize h
  | _ => exact h

theorem past_of_tooLarge (h : l.Of n c) (hc : n < c.size) : Past n l := by
  cases l with
  | start c' =>
    obtain rfl : c' = c := h
    exact hc
  | done c p q bs => trivial
  | kept c p bs | advancing c p q bs | signalling c p q bs | unlocking c p q bs =>
    exact absurd h.2.1 (Nat.not_le.2 hc)
  | _ => exact absurd h.2 (Nat.not_le.2 hc)

/-! ## The invariant -/

/-- What the history says of the calls in progress. -/
structure Known (r : Ring SizeT) (tr : List (Ev Tid)) (R : Roles Tid Call Role) : Prop where
  role : ∀ t a, R t = some a → a.role.Of r.objSize a.call
  called : ∀ t a, R t = some a → .call t a.id a.call ∈ tr
  unlock : Once unlocks unlocked tr R

/-- Before the deletion begins, the mutex works as in a ring that is never deleted; after that,
nobody uses the ring. -/
structure Kept (r : Ring SizeT) (tr : List (Ev Tid)) (s : Shared Tid) (R : Roles Tid Call Role) :
    Prop where
  mutex : Mutual s.mem (users R)
  alive : ¬ Begun tr → ∀ x, s.alive x = true
  past : Begun tr → ∀ t b, users R t = some b → Past r.objSize b.role

theorem known_inductive [DecidableEq Tid] {s₀ : Shared Tid} :
    Inductive (proto r) (sys r Tid) s₀ fun tr _ R => Known r tr R := by
  have hrole : Inductive (proto r) (sys r Tid) s₀ fun _ _ R =>
      ∀ t a, R t = some a → a.role.Of r.objSize a.call := by
    apply roles_inductive (fun a l => Role.Of r.objSize a l)
    · intro a
      cases a with
      | use c => exact rfl
      | del => trivial
    · intro a l o x l' hm h
      cases hm with
      | ring hm =>
        cases a with
        | use c => exact Role.of_trans hm h
        | del => exact h
      | destroy => cases a <;> exact h
  have hunlock : Inductive (proto r) (sys r Tid) s₀ fun tr _ R => Once unlocks unlocked tr R := by
    refine once_inductive unlocks unlocked (fun a => ?_) (fun hm ho => ?_) (fun hm ho => ?_)
    · cases a <;> rfl
    · cases hm with
      | ring hm =>
        cases hm with
        | unlock => cases ho
        | _ => rfl
      | destroy => rfl
    · cases hm with
      | ring hm =>
        cases hm with
        | unlock => exact ⟨rfl, ho⟩
        | _ => cases ho
      | destroy => cases ho
  exact (hrole.both (called_inductive.both hunlock)).congr fun tr s R =>
    ⟨fun h => ⟨h.1, h.2.1, h.2.2⟩, fun h => ⟨h.role, h.called, h.unlock⟩⟩

/-- When all calls have released the mutex, all threads are past using the ring. -/
theorem Known.past (h : Known r tr R) (hrel : Released r tr) {b : Active Block.Call Block.Role}
    (hb : users R t = some b) : Past r.objSize b.role := by
  have ht := exists_of_users hb
  by_cases hsize : b.call.size ≤ r.objSize
  · have hmem := hrel t b.id b.call (h.called t _ ht) hsize
    have hclaim : Claim.mk t b.id (Call.use b.call) () ∈ claims unlocks tr :=
      List.mem_filterMap.2 ⟨_, hmem, rfl⟩
    cases hl : unlocked (.use b.role) with
    | none => exact absurd rfl (h.unlock.other t _ ht hl _ hclaim)
    | some _ =>
      cases hr : b.role with
      | done c p q bs => trivial
      | _ =>
        rw [hr] at hl
        cases hl
  · exact past_of_tooLarge (h.role t _ ht) (Nat.not_le.1 hsize)

theorem Kept.not_busy (h : Kept r tr s R)
    (hpast : ∀ t b, users R t = some b → Past r.objSize b.role) (y : Sync) :
    ¬ Busy s.mem t y := by
  have hfree : ∀ u, held (users R u) = false ∧ waitsFor (users R u) = none := by
    intro u
    cases hu : users R u with
    | none => exact ⟨rfl, rfl⟩
    | some b => exact (hpast u b hu).free
  have hawake : ∀ u, s.mem.mtx.asleep u = none := fun u => h.mutex.awake (hfree u).2
  cases y with
  | mtx =>
    intro ⟨u, _, hu⟩
    cases ((h.mutex.owner u).1 hu).symm.trans (hfree u).1
  | writeable | readable =>
    intro ⟨u, hu⟩
    cases hu.symm.trans (hawake u)

/-- A push or pop finds all objects alive. -/
theorem Kept.alive_of_trans (h : Kept r tr s R) (ht : users R t = some ⟨id, c, l⟩)
    (hm : Block.Trans r l o x l') (y : Sync) : s.alive y = true := by
  refine h.alive (fun hb => ?_) y
  exact (h.past hb t _ ht).not_trans hm

section Moves

variable [DecidableEq Tid]

theorem Kept.idle (h : Kept r tr s R) {y : Option (Active Call Role)}
    (ht : held (users R t) = false ∧ waitsFor (users R t) = none)
    (hy : held (user y) = false ∧ waitsFor (user y) = none) (he : ¬ Destroys e)
    (hpast : Begun tr → ∀ b, user y = some b → Past r.objSize b.role) :
    Kept r (tr ++ [e]) s (Function.update R t y) := by
  have hbegun : Begun (tr ++ [e]) ↔ Begun tr := by
    rw [begun_snoc]
    exact or_iff_left he
  refine ⟨?_, fun hb => h.alive (mt hbegun.2 hb), fun hb u b hu => ?_⟩
  · rw [users_update]
    exact h.mutex.keep rfl (hy.1.trans ht.1.symm) (hy.2.trans ht.2.symm)
  · rw [users_update] at hu
    rcases update_some_iff.1 hu with ⟨rfl, hy⟩ | ⟨-, hu⟩
    · exact hpast (hbegun.1 hb) b hy
    · exact h.past (hbegun.1 hb) u b hu

theorem Kept.ring (h : Kept r tr s R) (ht : R t = some ⟨id, .use c, .use l⟩)
    (hm : Block.Trans r l o x l') (he : Exec t (.ring o) s x s') :
    Kept r (tr ++ [.op t id (.use c) (.ring o) x]) s'
      (Function.update R t (some ⟨id, .use c, .use l'⟩)) := by
  have hu : users R t = some ⟨id, c, l⟩ := by
    rw [users, ht]
    rfl
  have hno : ¬ Begun tr := fun hb => (h.past hb t _ hu).not_trans hm
  have hno' : ¬ Begun (tr ++ [.op t id (.use c) (.ring o) x]) := by
    rw [begun_snoc]
    rintro (hb | ⟨_, _, _, _, hd⟩)
    · exact hno hb
    · cases hd
  obtain ⟨hexec, hsame⟩ := he fun y _ => h.alive_of_trans hu hm y
  refine ⟨?_, fun _ => hsame ▸ h.alive hno, fun hb => absurd hb hno'⟩
  rw [users_update]
  exact h.mutex.op hu hm hexec

theorem Kept.destroy (h : Kept r tr s R) {y : Sync} {xs : List Sync}
    (ht : users R t = none) (hpast : ∀ t b, users R t = some b → Past r.objSize b.role) :
    Kept r (tr ++ [.op t id a (.destroy y) ()]) { s with alive := Function.update s.alive y false }
      (Function.update R t (some ⟨id, a, .del xs⟩)) := by
  have hy : user (some ⟨id, a, .del xs⟩) = none := by
    cases a <;> rfl
  have husers : users (Function.update R t (some ⟨id, a, .del xs⟩)) = users R := by
    rw [users_update, hy, ← ht, Function.update_eq_self]
  have hbegun : Begun (tr ++ [.op t id a (.destroy y) ()]) :=
    begun_snoc.2 (.inr ⟨t, id, a, y, rfl⟩)
  refine ⟨?_, fun hb => absurd hbegun hb, fun _ => ?_⟩
  · rw [husers]
    exact h.mutex.wakes rfl .refl
  · rw [husers]
    exact hpast

theorem final_idle {v : Ret} (hf : (Block.proto r).final l v) :
    l.holds = false ∧ l.waits = none := by
  cases l with
  | start c => exact ⟨rfl, rfl⟩
  | done c p q bs => exact ⟨rfl, rfl⟩
  | _ => exact hf.elim

theorem kept_inductive (m₀ : BMem Tid) :
    InductiveUnder (proto r) (sys r Tid) (made m₀) (fun tr _ R => Orderly r tr ∧ Known r tr R)
      fun tr s R => Kept r tr s R where
  init _ := by
    refine ⟨mutual_init rfl, fun _ _ => rfl, fun ⟨e, he, _⟩ => ?_⟩
    cases he
  call {tr s R t id a} _ _ h ht _ hA := by
    have hidle : held (users R t) = false ∧ waitsFor (users R t) = none := by
      rw [users, ht]
      exact ⟨rfl, rfl⟩
    refine h.idle hidle ?_ (fun ⟨_, _, _, _, hd⟩ => by cases hd) fun hb b hy => ?_
    · cases a <;> exact ⟨rfl, rfl⟩
    · cases a with
      | del => cases hy
      | use c =>
        obtain rfl := Option.some.inj hy
        by_contra hsize
        exact hA.1.last (Nat.not_lt.1 hsize) hb
  op {n tr s R t id a l o x l' s'} _ hA h ht hm he hA' := by
    cases hm with
    | ring hm =>
      have hof := hA.2.role t _ ht
      cases a with
      | use c => exact h.ring ht hm he
      | del => exact hof.elim
    | destroy =>
      obtain rfl := he
      refine h.destroy ?_ fun u b hu => hA.2.past hA'.1.last hu
      rw [users, ht]
      cases a <;> rfl
  ret {n tr s R t id a l v} _ hA h ht hf _ := by
    have hidle : held (users R t) = false ∧ waitsFor (users R t) = none := by
      rw [users, ht]
      have hof := hA.2.role t _ ht
      cases a with
      | use c =>
        cases l with
        | use l =>
          cases v with
          | some v => exact final_idle hf
          | none => exact hf.elim
        | del xs => exact hof.elim
      | del => exact ⟨rfl, rfl⟩
    exact h.idle hidle ⟨rfl, rfl⟩ (fun ⟨_, _, _, _, hd⟩ => by cases hd) fun _ b hy => nomatch hy
  env {tr s R s'} _ h he _ := by
    obtain ⟨hmem, halive⟩ := he
    exact ⟨h.mutex.env hmem, halive ▸ h.alive, h.past⟩

end Moves

/-! ## Every run -/

/-- **A ring that is deleted after its last use.** In every run in which every push and pop that
is not too large starts before the deletion begins, and has released the mutex by then, the mutex
and the conditions are there for all who use them, and nobody uses what is destroyed. -/
theorem leave_fine [DecidableEq Tid] {m₀ : BMem Tid}
    {c c' : Config Op Op.Res Block.Call Tid Call (Option Ret) (Shared Tid)}
    (h : Run (sys r Tid) (.start (made m₀)) tr c) (hs : Step (sys r Tid) c (some e) c')
    (hok : Orderly r (tr ++ [e])) : Fine c.shared e := by
  obtain ⟨R, hF, -, hknown, hkept⟩ := Inductive.run (follows r Tid)
    (known_inductive.and (InductiveUnder.guard (fun _ _ => Orderly.init) (kept_inductive m₀))) h
  have hkept := hkept hok.init
  cases hs with
  | call _ _ => trivial
  | ret _ => trivial
  | @op t id a o k x s' ht he =>
    obtain ⟨l, hR, hw⟩ := (ht ▸ hF t : Follow (proto r) (.run id a (.op o k)) (R t)).run
    obtain ⟨l', hm, -⟩ := hw x
    cases hm with
    | @ring l o x l' hm =>
      have hof := hknown.role t _ hR
      cases a with
      | del => exact hof.elim
      | use c =>
        have hu : users R t = some ⟨id, c, l⟩ := by
          rw [users, hR]
          rfl
        exact fun y _ => hkept.alive_of_trans hu hm y
    | destroy => exact hkept.not_busy (fun u b hu => hknown.past hok.last hu) _

theorem alone_use [DecidableEq Tid] {p : BlockProg Ret} {m m' : BMem Tid}
    {ops : List ((o : Block.Op) × o.Res)} {v : Ret} {alive : Sync → Bool}
    (h : Alone (Block.sys r Tid) t p m ops v m') :
    Alone (sys r Tid) t (use p) ⟨m, alive⟩ (ops.map fun y => ⟨.ring y.1, y.2⟩) (some v)
      ⟨m', alive⟩ := by
  induction h with
  | ret => exact .ret
  | @op o k m x m' ops v m'' he _ ih =>
    have hexec : Exec t (.ring o) ⟨m, alive⟩ x ⟨m', alive⟩ := fun _ => ⟨he, rfl⟩
    exact .op hexec ih
  | jump _ ih => exact .jump ih

/-- A byte pushed onto a ring just made. -/
def onePush : Block.Call := .push [7]

def freshRing : BMem Bool := Block.getBlockBuf .zero

/-- The ring after the push. -/
def onePushed : Shared Bool := ⟨pushState tinyRing [7] freshRing, fun _ => true⟩

/-- The events of the push, and the call of a deletion by the same thread. -/
def pushThenDel : List (Ev Bool) :=
  .call true 0 (.use onePush) :: (opEvents true 0 (.use onePush)
    ((pushOps tinyRing [7] freshRing).map fun y => ⟨.ring y.1, y.2⟩) ++
    [.ret true 0 (.use onePush) (some ⟨0, []⟩)]) ++ [.call true 1 .del]

theorem pushThenDel_run : Run (sys tinyRing Bool) (.start (made .zero)) pushThenDel
    ⟨onePushed, Function.update (fun _ => .idle) true (.run 1 .del delBlockBuf), 2⟩ := by
  have hpush : Alone (sys tinyRing Bool) true (use (pushBlockRingBuf tinyRing [7])) (made .zero)
      ((pushOps tinyRing [7] freshRing).map fun y => ⟨.ring y.1, y.2⟩) (some ⟨0, []⟩)
      onePushed := alone_use (alone_push (r := tinyRing) (t := true)
    (show [(7 : Byte)].length ≤ 64 by decide) rfl (show ¬ (0 - 0 : SizeT) ≥ 2 by decide))
  have hcall : Run (sys tinyRing Bool) ⟨onePushed, fun _ => .idle, 1⟩ [.call true 1 .del]
      ⟨onePushed, Function.update (fun _ => .idle) true (.run 1 .del delBlockBuf), 2⟩ :=
    Run.single (.call rfl trivial)
  exact (Run.alone (c := .start (made .zero)) (a := Call.use onePush) rfl trivial hpush).trans hcall

/-- The thread that has pushed may begin to delete the ring. -/
theorem leave_fine_pushThenDel :
    Orderly tinyRing (pushThenDel ++ [.op true 1 .del (.destroy .mtx) ()]) ∧
    Fine onePushed (.op true 1 .del (.destroy .mtx) ()) := by
  have hno : ¬ Begun pushThenDel := by
    rintro ⟨e, he, t, id, a, x, rfl⟩
    simp [pushThenDel, opEvents, pushOps, copyOps] at he
  have hok : Orderly tinyRing (pushThenDel ++ [.op true 1 .del (.destroy .mtx) ()]) := by
    refine (orderly_of_not_begun hno).snoc fun t id c hc _ => ?_
    simp only [pushThenDel, opEvents, pushOps, copyOps] at hc ⊢
    simp at hc
    obtain ⟨rfl, rfl, rfl⟩ := hc
    simp
  have hstep : Exec true (.destroy .mtx) onePushed ()
      { onePushed with alive := Function.update onePushed.alive .mtx false } := rfl
  exact ⟨hok, leave_fine pushThenDel_run (.op rfl hstep) hok⟩

/-! ## One process leaves too early -/

/-- The objects that a deletion destroys. -/
def destroyAll : List ((o : Op) × o.Res) :=
  [⟨.destroy .mtx, ()⟩, ⟨.destroy .writeable, ()⟩, ⟨.destroy .readable, ()⟩]

/-- A thread deletes the ring, and returns. -/
def delFirst : List (Ev Bool) :=
  .call false 0 .del :: (opEvents false 0 .del destroyAll ++ [.ret false 0 .del none])

/-- A ring whose objects have been destroyed. -/
def deadRing : Shared Bool := ⟨freshRing, fun _ => false⟩

theorem delFirst_run :
    Run (sys tinyRing Bool) (.start (made .zero)) delFirst ⟨deadRing, fun _ => .idle, 1⟩ := by
  have hdead : deadRing = { deadRing with alive := Function.update (Function.update
      (Function.update (fun _ => true) .mtx false) .writeable false) Sync.readable false } := by
    show Shared.mk _ _ = Shared.mk _ _
    congr 1
    funext x
    cases x <;> rfl
  have hdel :
      Alone (sys tinyRing Bool) false delBlockBuf (made .zero) destroyAll none deadRing := by
    rw [hdead]
    exact .op rfl (.op rfl (.op rfl .ret))
  exact Run.alone (c := .start (made .zero)) (a := Call.del) rfl trivial hdel

theorem delFirst_keepsOut : KeepsOut (fun t : Bool => t)
    (delFirst ++ [.call true 1 (.use onePush)] ++
      [.op true 1 (.use onePush) (.ring .lock) ()]) := by
  simp [KeepsOut, delFirst, opEvents, destroyAll]

/-- The other thread has called a push. -/
def pushCalled : Config Op Op.Res Block.Call Bool Call (Option Ret) (Shared Bool) :=
  ⟨deadRing, Function.update (fun _ => .idle) true
    (.run 1 (.use onePush) (.op (.ring .lock) fun _ => .jump onePush)), 2⟩

theorem pushCalled_step :
    Step (sys tinyRing Bool) ⟨deadRing, fun _ => .idle, 1⟩ (some (.call true 1 (.use onePush)))
      pushCalled :=
  .call rfl trivial

/-- **One process that leaves breaks the others**: the push of another one locks a mutex that has
been destroyed. -/
theorem leave_breaks : ¬ LeavesWell tinyRing BMem.zero fun t : Bool => t := by
  intro h
  have hlock : Exec true (.ring .lock) deadRing () deadRing := by
    intro halive
    cases halive .mtx (List.mem_singleton_self _)
  have hstep : Step (sys tinyRing Bool) pushCalled
      (some (.op true 1 (.use onePush) (.ring .lock) ()))
      ⟨deadRing, Function.update pushCalled.thread true (.run 1 (.use onePush) (.jump onePush)),
        2⟩ :=
    .op (k := fun _ => .jump onePush) rfl hlock
  have hfine := h _ _ _ _ (delFirst_run.trans (Run.single pushCalled_step)) hstep delFirst_keepsOut
  cases hfine .mtx (List.mem_singleton_self _)

end Block.Leave

end RingBuf
