import Mathlib.Logic.Function.Basic

/-!
# Programs as trees of atomic operations

A thread's program is a tree (`Prog`). It returns a value, or performs one atomic operation and
goes on with the operation's answer, or jumps to a label whose code is given elsewhere (a loop
that may run forever is a label that its own code jumps to). Everything between two operations
is private to the thread, so an interleaving of threads is an interleaving of operations.

The tree says nothing about what an operation does: `run` executes it alone against a handler,
`Conc.Machine` interleaves many of them, and `Conc.Protocol` reasons about them.
-/

namespace Conc

/-- A program over the operations `Op`; operation `o` answers a value of `Res o`, and `Lbl` are
the labels it may jump to. -/
inductive Prog (Op : Type) (Res : Op → Type) (Lbl α : Type) : Type
  | ret (a : α)
  | op (o : Op) (k : Res o → Prog Op Res Lbl α)
  | jump (l : Lbl)

namespace Prog

variable {Op : Type} {Res : Op → Type} {Lbl α β γ σ : Type}

/-- Run `p`, then go on with its value. A jump leaves for good. -/
def bind : Prog Op Res Lbl α → (α → Prog Op Res Lbl β) → Prog Op Res Lbl β
  | ret a, f => f a
  | op o k, f => op o fun r => (k r).bind f
  | jump l, _ => jump l

instance : Monad (Prog Op Res Lbl) where
  pure := ret
  bind := bind

@[simp] theorem pure_eq (a : α) : (pure a : Prog Op Res Lbl α) = ret a := rfl

@[simp] theorem ret_bind (a : α) (f : α → Prog Op Res Lbl β) : ret a >>= f = f a := rfl

@[simp] theorem op_bind (o : Op) (k : Res o → Prog Op Res Lbl α) (f : α → Prog Op Res Lbl β) :
    op o k >>= f = op o fun r => k r >>= f := rfl

@[simp] theorem jump_bind (l : Lbl) (f : α → Prog Op Res Lbl β) :
    (jump l : Prog Op Res Lbl α) >>= f = jump l := rfl

theorem bind_assoc (p : Prog Op Res Lbl α) (f : α → Prog Op Res Lbl β)
    (g : β → Prog Op Res Lbl γ) : p >>= f >>= g = p >>= fun a => f a >>= g := by
  induction p with
  | ret a => rfl
  | op o k ih => simp only [op_bind, ih]
  | jump l => rfl

/-! ## A program alone -/

/-- Execute a program without labels by itself: every operation is answered by the handler
`ex`, which also updates the state. -/
def run (ex : (o : Op) → σ → Res o × σ) : Prog Op Res Empty α → σ → α × σ
  | ret a, s => (a, s)
  | op o k, s => (k (ex o s).1).run ex (ex o s).2
  | jump l, _ => l.elim

variable (ex : (o : Op) → σ → Res o × σ)

@[simp] theorem run_ret (a : α) (s : σ) : (ret a : Prog Op Res Empty α).run ex s = (a, s) := rfl

@[simp] theorem run_op (o : Op) (k : Res o → Prog Op Res Empty α) (s : σ) :
    (op o k).run ex s = (k (ex o s).1).run ex (ex o s).2 := rfl

theorem run_bind (p : Prog Op Res Empty α) (f : α → Prog Op Res Empty β) (s : σ) :
    (p >>= f).run ex s = (f (p.run ex s).1).run ex (p.run ex s).2 := by
  induction p generalizing s with
  | ret a => rfl
  | op o k ih => simp only [op_bind, run_op, ih]
  | jump l => exact l.elim

end Prog

end Conc
