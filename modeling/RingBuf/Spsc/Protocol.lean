import RingBuf.Spsc.Code

/-!
# The Spsc functions as moves

Where the producer and the consumer can stand inside a use of the ring, the operations that take
them from one place to the next, and what may come of a use where. Pushing by copy and in place
differ in how the slot is filled and in how the counter is advanced; the full and empty tests are
the same.
-/

namespace RingBuf

open Conc Word

namespace Spsc

/-- Where a thread stands inside a use. -/
inductive Role (n : Nat)
  | start (c : Call n)
  | pushHead (c : Call n) (h : SizeT)
  /-- The cached tail says full. -/
  | pushTail (c : Call n) (h : SizeT)
  | pushRefresh (c : Call n) (h d : SizeT)
  | full (c : Call n)
  /-- The slot of `h` is the producer's, with `j` writes done. -/
  | filling (c : Call n) (h : SizeT) (j : Nat)
  /-- Inside `End_push`. -/
  | ending (c : Call n) (h : SizeT)
  | pushed (c : Call n) (h : SizeT)
  | popTail (c : Call n) (d : SizeT)
  /-- The cached head says empty. -/
  | popCache (c : Call n) (d : SizeT)
  | popHead (c : Call n) (d h : SizeT)
  | empty (c : Call n)
  /-- The slot of `d` is the consumer's, with the bytes copied out so far. -/
  | draining (c : Call n) (d : SizeT) (bs : List Byte)
  /-- Inside `End_pop`. -/
  | leaving (c : Call n) (d : SizeT) (bs : List Byte)
  | popped (c : Call n) (d : SizeT) (bs : List Byte)

variable {r : Ring SizeT}

/-- The moves of the producer and the consumer. -/
inductive Trans (r : Ring SizeT) :
    Role r.objSize → (o : Op SizeT) → o.Res → Role r.objSize → Prop
  | loadHead {c h} : c.pushes = true → (∀ args, c = .push args → args.length ≤ r.objSize) →
      Trans r (.start c) .loadHead h (.pushHead c h)
  | cacheRoom {c h d} : ¬ h - d ≥ r.objNum →
      Trans r (.pushHead c h) .getLocalTail d (.filling c h 0)
  | cacheFull {c h d} : h - d ≥ r.objNum →
      Trans r (.pushHead c h) .getLocalTail d (.pushTail c h)
  | pushTail {c h d} : Trans r (.pushTail c h) .loadTail d (.pushRefresh c h d)
  | setFull {c h d} : h - d ≥ r.objNum →
      Trans r (.pushRefresh c h d) (.setLocalTail d) () (.full c)
  | setRoom {c h d} : ¬ h - d ≥ r.objNum →
      Trans r (.pushRefresh c h d) (.setLocalTail d) () (.filling c h 0)
  | copyIn {args h j b} : args[j]? = some b →
      Trans r (.filling (.push args) h j) (.writeByte (r.addr (h &&& r.mask) + j) b) ()
        (.filling (.push args) h (j + 1))
  | place {ws commit h j} {w : Fin r.objSize × Byte} : ws[j]? = some w →
      Trans r (.filling (.place ws commit) h j) (.writeByte (r.addr (h &&& r.mask) + w.1) w.2) ()
        (.filling (.place ws commit) h (j + 1))
  | publish {args h} : Trans r (.filling (.push args) h args.length) (.storeHead (h + 1)) ()
      (.pushed (.push args) h)
  | endHead {ws h h'} : Trans r (.filling (.place ws true) h ws.length) .loadHead h'
      (.ending (.place ws true) h')
  | endPush {c h} : Trans r (.ending c h) (.storeHead (h + 1)) () (.pushed c h)
  | popTail {c d} : c.pushes = false → (∀ size, c = .pop size → size ≤ r.objSize) →
      Trans r (.start c) .loadTail d (.popTail c d)
  | cacheEmpty {c d} : Trans r (.popTail c d) .getLocalHead d (.popCache c d)
  | cacheSome {c d h} : h ≠ d → Trans r (.popTail c d) .getLocalHead h (.draining c d [])
  | popHead {c d h} : Trans r (.popCache c d) .loadHead h (.popHead c d h)
  | setEmpty {c d} : Trans r (.popHead c d d) (.setLocalHead d) () (.empty c)
  | setSome {c d h} : h ≠ d → Trans r (.popHead c d h) (.setLocalHead h) () (.draining c d [])
  | copyOut {size d bs b} : bs.length < size → size ≤ r.objSize →
      Trans r (.draining (.pop size) d bs) (.readByte (r.addr (d &&& r.mask) + bs.length)) b
        (.draining (.pop size) d (bs ++ [b]))
  | take {read d bs b} {j : Nat} : j < r.objSize →
      Trans r (.draining (.take read) d bs) (.readByte (r.addr (d &&& r.mask) + j)) b
        (.draining (.take read) d bs)
  | giveBack {size d bs} : bs.length = size →
      Trans r (.draining (.pop size) d bs) (.storeTail (d + 1)) () (.popped (.pop size) d bs)
  | endTail {read d d' bs} : Trans r (.draining (.take read) d bs) .loadTail d'
      (.leaving (.take read) d' bs)
  | endPop {read d bs} : Trans r (.leaving (.take read) d bs) (.storeTail (d + 1)) ()
      (.popped (.take read) d bs)

/-- The protocol of the Spsc ring. -/
def proto (r : Ring SizeT) :
    Proto (Op SizeT) Op.Res Empty (Call r.objSize) Out (Role r.objSize) where
  start := .start
  trans := Trans r
  final
    | .start (.push args), v => args.length > r.objSize ∧ v = .code ringbufPushSizeTooLarge []
    | .start (.pop size), v => size > r.objSize ∧ v = .code ringbufPopSizeTooLarge []
    | .full (.push _), v => v = .code ringbufFull []
    | .full (.place _ _), v => v = .null
    | .filling (.place _ false) _ _, v => v = .done false
    | .pushed (.push _) h, v => v = .code (toSsize h) []
    | .pushed (.place _ true) _, v => v = .done true
    | .empty (.pop _), v => v = .code ringbufEmpty []
    | .empty (.take _), v => v = .null
    | .draining (.take _) _ _, v => v = .done false
    | .popped (.pop _) d bs, v => v = .code (toSsize d) bs
    | .popped (.take _) _ _, v => v = .done true
    | _, _ => False
  entry _ _ := False

/-- The full test ends in `full`, or hands the slot to the producer. -/
theorem wp_pushFull {c : Call r.objSize} {h : SizeT} {Q : Role r.objSize → Bool → Prop}
    (hfull : Q (.full c) true) (hroom : Q (.filling c h 0) false) :
    (proto r).wp (pushFull r h) Q (.pushHead c h) := by
  simp only [pushFull, Prog.op_bind, Prog.ret_bind]
  intro localTail
  beta_reduce
  split
  case isTrue hc =>
    refine ⟨_, .cacheFull hc, fun d => ⟨_, .pushTail, ?_⟩⟩
    by_cases hd : h - d ≥ r.objNum
    · refine fun _ => ⟨_, .setFull hd, ?_⟩
      simpa [hd] using hfull
    · refine fun _ => ⟨_, .setRoom hd, ?_⟩
      simpa [hd] using hroom
  case isFalse hc => exact ⟨_, .cacheRoom hc, hroom⟩

/-- The empty test ends in `empty`, or hands the slot to the consumer. -/
theorem wp_popEmpty {c : Call r.objSize} {d : SizeT} {Q : Role r.objSize → Bool → Prop}
    (hempty : Q (.empty c) true) (hsome : Q (.draining c d []) false) :
    (proto r).wp (popEmpty d) Q (.popTail c d) := by
  simp only [popEmpty, Prog.op_bind, Prog.ret_bind]
  intro localHead
  beta_reduce
  split
  case isTrue hd =>
    subst hd
    refine ⟨_, .cacheEmpty, fun h => ⟨_, .popHead, ?_⟩⟩
    by_cases hh : h = localHead
    · subst hh
      refine fun _ => ⟨_, .setEmpty, ?_⟩
      simpa using hempty
    · refine fun _ => ⟨_, .setSome hh, ?_⟩
      simpa [hh] using hsome
  case isFalse hd => exact ⟨_, .cacheSome hd, hsome⟩

theorem wp_writeObj {ws : List (Fin r.objSize × Byte)} {commit : Bool} {h : SizeT}
    {Q : Role r.objSize → Unit → Prop} (hQ : Q (.filling (.place ws commit) h ws.length) ())
    (done rest : List (Fin r.objSize × Byte)) (hws : ws = done ++ rest) :
    (proto r).wp (writeObj (r.addr (h &&& r.mask)) rest) Q
      (.filling (.place ws commit) h done.length) := by
  induction rest generalizing done with
  | nil =>
    rw [hws, List.append_nil] at hQ ⊢
    exact hQ
  | cons w rest ih =>
    refine fun _ => ⟨_, .place (w := w) ?_, ?_⟩
    · rw [hws, List.getElem?_append_right le_rfl]
      simp
    · have := ih (done ++ [w]) (by simp [hws])
      rwa [List.length_append, List.length_singleton] at this

theorem wp_push (args : List Byte) :
    (proto r).wp (body r (.push args)) (proto r).final (.start (.push args)) := by
  refine Proto.wp_bind ?_
  unfold pushSpscRingBuf
  split
  case isTrue hsize => exact ⟨hsize, rfl⟩
  case isFalse hsize =>
    simp only [Prog.op_bind, Prog.ret_bind]
    refine fun h => ⟨_, .loadHead rfl (by rintro _ ⟨⟩; omega), Proto.wp_bind ?_⟩
    refine wp_pushFull rfl (Proto.wp_bind ?_)
    exact wp_memcpyTo (P := proto r) (fun j => .filling (.push args) h j)
      (fun j b hb => .copyIn hb) fun _ => ⟨_, .publish, rfl⟩

theorem wp_place (ws : List (Fin r.objSize × Byte)) (commit : Bool) :
    (proto r).wp (body r (.place ws commit)) (proto r).final (.start (.place ws commit)) := by
  refine Proto.wp_bind ?_
  simp only [beginPushSpscRingBuf, Prog.op_bind, Prog.ret_bind]
  refine fun h => ⟨_, .loadHead rfl (by simp), Proto.wp_bind ?_⟩
  refine wp_pushFull rfl (Proto.wp_bind (wp_writeObj ?_ [] ws rfl))
  cases commit with
  | true => exact fun h' => ⟨_, .endHead, fun _ => ⟨_, .endPush, rfl⟩⟩
  | false => rfl

theorem wp_pop (size : Nat) :
    (proto r).wp (body r (.pop size)) (proto r).final (.start (.pop size)) := by
  refine Proto.wp_bind ?_
  unfold popSpscRingBuf
  split
  case isTrue hsize => exact ⟨hsize, rfl⟩
  case isFalse hsize =>
    simp only [Prog.op_bind, Prog.ret_bind]
    refine fun d => ⟨_, .popTail rfl (by rintro _ ⟨⟩; omega), Proto.wp_bind ?_⟩
    refine wp_popEmpty rfl (Proto.wp_bind ?_)
    exact wp_memcpyFrom (P := proto r) (fun bs => .draining (.pop size) d bs)
      (fun bs b hlt => .copyOut hlt (by omega)) fun bs hbs _ => ⟨_, .giveBack hbs, rfl⟩

theorem wp_take (read : Prog (Fin r.objSize) (fun _ => Byte) Empty Bool) :
    (proto r).wp (body r (.take read)) (proto r).final (.start (.take read)) := by
  refine Proto.wp_bind ?_
  simp only [beginPopSpscRingBuf, Prog.op_bind, Prog.ret_bind]
  refine fun d => ⟨_, .popTail rfl (by simp), Proto.wp_bind ?_⟩
  refine wp_popEmpty rfl (Proto.wp_bind ?_)
  refine wp_readObj (P := proto r) (fun j b => .take j.isLt) fun commit => ?_
  cases commit with
  | true => exact fun d' => ⟨_, .endTail, fun _ => ⟨_, .endPop, rfl⟩⟩
  | false => rfl

/-- **The code makes only these moves.** -/
theorem follows (r : Ring SizeT) {Tid : Type} [DecidableEq Tid] (producer consumer : Tid) :
    (proto r).Follows (sys r producer consumer) where
  body
    | .push args => wp_push args
    | .place ws commit => wp_place ws commit
    | .pop size => wp_pop size
    | .take read => wp_take read
  code l := l.elim

end Spsc

end RingBuf
