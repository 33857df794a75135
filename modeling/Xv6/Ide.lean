import Mathlib.Data.Fintype.Card
import Xv6.Lib.Chain
import Xv6.Log.Crash

/-!
# Xv6.Ide

The disk driver of `ide.c`: the queue of requests, the interrupt handler and the callers of
`iderw`, each with the buffer that it holds the lock of; and that of `memide.c`, which
does a request at once.

Steps of the callers and of the handler are what they do while they hold `idelock`. The disk
does a command that was started at some later time and raises one interrupt for it
(`perform`); the handler runs after that. A caller that is woken looks at its buffer
again, also when it was woken for another reason (`kick`).

A history is kept of the requests in the order of submission and completion, and of what the
memory disk would have been asked: a request counts there when the disk does it.
-/

namespace Xv6

open Function (update update_of_ne)

/-- `FSSIZE`. -/
def fssize : Nat := 3000

/-- `struct buf`, as far as the drivers look at it. -/
structure Buf where
  /-- `B_VALID`. -/
  valid : Bool
  /-- `B_DIRTY`. -/
  dirty : Bool
  dev : Nat
  blockno : Nat
  data : Block

/-- `(b->flags & (B_VALID|B_DIRTY)) == B_VALID`. -/
def Buf.Clean (b : Buf) : Prop := b.valid = true ∧ b.dirty = false

instance (b : Buf) : Decidable b.Clean := inferInstanceAs (Decidable (_ ∧ _))

/-! ### The memory disk -/

/-- What `memide.c` does with a request, on a disk with its block. -/
def Buf.sync (d : Disk) (b : Buf) : Disk × Buf :=
  if b.dirty then (update d b.blockno b.data, { b with dirty := false, valid := true })
  else (d, { b with data := d b.blockno, valid := true })

theorem Buf.sync_of_dirty {d : Disk} {b : Buf} (h : b.dirty = true) :
    b.sync d = (update d b.blockno b.data, { b with dirty := false, valid := true }) := if_pos h

theorem Buf.sync_of_not_dirty {d : Disk} {b : Buf} (h : b.dirty = false) :
    b.sync d = (d, { b with data := d b.blockno, valid := true }) := if_neg (by rw [h]; nofun)

/-- `iderw` of `memide.c`; nothing for a panic. -/
def memIderw (d : Disk) (b : Buf) : Option (Disk × Buf) :=
  if b.Clean ∨ b.dev ≠ 1 ∨ fssize ≤ b.blockno then none else some (b.sync d)

/-- What the memory disk is asked, and what the holders of buffers do to them meanwhile. -/
inductive DiskOp (B : Type)
  | change (b : B) (v : Buf)
  | iderw (b : B)

/-- The memory disk and the buffers. -/
structure MemDisk (B : Type) where
  disk : Disk
  buf : B → Buf

section
variable {B : Type} [DecidableEq B]

def MemDisk.exec (m : MemDisk B) : DiskOp B → Option (MemDisk B)
  | .change b v => some { m with buf := update m.buf b v }
  | .iderw b => (memIderw m.disk (m.buf b)).map fun r => ⟨r.1, update m.buf b r.2⟩

def MemDisk.run (m : MemDisk B) (ops : List (DiskOp B)) : Option (MemDisk B) :=
  ops.foldlM MemDisk.exec m

end

/-- The requests among the operations. -/
def DiskOp.request {B : Type} : DiskOp B → Option B
  | .change _ _ => none
  | .iderw b => some b

/-- The operation is on this buffer. -/
def DiskOp.on {B : Type} [DecidableEq B] (b : B) : DiskOp B → Bool
  | .change c _ => decide (c = b)
  | .iderw c => decide (c = b)

/-! ### The driver with a queue -/

/-- A command to the disk. -/
inductive IdeCmd
  | read (sector : Nat)
  | write (sector : Nat) (data : Block)

/-- The disk controller. -/
inductive IdeDevice
  | idle
  | busy (c : IdeCmd)
  /-- The command is done, and the interrupt raised; what `insl` gets. -/
  | raised (c : IdeCmd) (out : Block)

/-- The command that `idestart` gives for a buffer. -/
def Buf.cmd (b : Buf) : IdeCmd := if b.dirty then .write b.blockno b.data else .read b.blockno

structure Ide (B : Type) where
  buf : B → Buf
  disk : Disk
  idequeue : Option B
  qnext : B → Option B
  device : IdeDevice
  /-- A caller is in `iderw` with this buffer. -/
  waiting : B → Bool
  asleep : B → Bool
  submitted : List B
  completed : List B
  hist : List (DiskOp B)

inductive IdeLabel (B : Type)
  /-- The holder of a buffer changes it. -/
  | change (b : B) (v : Buf)
  /-- `iderw`, to where it sleeps. -/
  | iderw (b : B)
  /-- The disk does the command. -/
  | perform
  | ideintr
  /-- `iderw`, from where it slept. -/
  | resume (b : B)
  | kick (b : B)

/-- What the callers do. -/
def IdeLabel.op {B : Type} : IdeLabel B → Option (DiskOp B)
  | .change b v => some (.change b v)
  | .iderw b => some (.iderw b)
  | _ => none

namespace Ide

section
variable {B : Type} [DecidableEq B]

/-- `idestart`. -/
def idestart (x : Ide B) (b : B) : Ide B := { x with device := .busy (x.buf b).cmd }

/-- What `ideintr` makes of a buffer; `out` is what `insl` gets. -/
def doneBuf (b : Buf) (out : Block) : Buf :=
  { b with valid := true, dirty := false, data := if b.dirty then b.data else out }

/-- `ideintr` for the first buffer of the queue. -/
def intrDone (x : Ide B) (b : B) (out : Block) : Ide B :=
  { x with
    idequeue := x.qnext b
    buf := update x.buf b (doneBuf (x.buf b) out)
    device := .idle
    asleep := update x.asleep b false
    completed := x.completed ++ [b] }

/-- `ideintr`. -/
def ideintr (x : Ide B) (out : Block) : Ide B :=
  match x.idequeue with
  | none => { x with device := .idle }
  | some b =>
    let y := x.intrDone b out
    match y.idequeue with
    | none => y
    | some c => y.idestart c

variable [Fintype B]

/-- The first part of `iderw`. -/
def iderw (x : Ide B) (b : B) : Ide B :=
  let q := enqueue x.qnext (Fintype.card B) x.idequeue b
  let y := { x with
    idequeue := q.1
    qnext := q.2
    waiting := update x.waiting b true
    asleep := update x.asleep b true
    submitted := x.submitted ++ [b] }
  if y.idequeue = some b then y.idestart b else y

theorem iderw_eq (x : Ide B) (b : B) : x.iderw b =
    { x with
      idequeue := (enqueue x.qnext (Fintype.card B) x.idequeue b).1
      qnext := (enqueue x.qnext (Fintype.card B) x.idequeue b).2
      waiting := update x.waiting b true
      asleep := update x.asleep b true
      submitted := x.submitted ++ [b]
      device := if (enqueue x.qnext (Fintype.card B) x.idequeue b).1 = some b
        then .busy (x.buf b).cmd else x.device } := by
  unfold iderw
  dsimp only
  split <;> rfl

omit [Fintype B] in
/-- The disk does a command. -/
def perform (x : Ide B) (c : IdeCmd) : Ide B :=
  let y := { x with hist := x.hist ++ (x.idequeue.map DiskOp.iderw).toList }
  match c with
  | .read n => { y with device := .raised c (x.disk n) }
  | .write n data =>
    { y with device := .raised c data, disk := update x.disk n data }

/-- The steps. A request is one that `memide.c` would not refuse. -/
inductive Step (x : Ide B) : IdeLabel B → Ide B → Prop
  | change (b : B) (v : Buf) : x.waiting b = false →
      Step x (.change b v) { x with buf := update x.buf b v, hist := x.hist ++ [.change b v] }
  | iderw (b : B) : x.waiting b = false → ¬ (x.buf b).Clean → (x.buf b).dev = 1 →
      (x.buf b).blockno < fssize → Step x (.iderw b) (x.iderw b)
  | perform (c : IdeCmd) : x.device = .busy c → Step x .perform (x.perform c)
  | ideintr (c : IdeCmd) (out : Block) : x.device = .raised c out → Step x .ideintr (x.ideintr out)
  | ret (b : B) : x.waiting b = true → x.asleep b = false → (x.buf b).Clean →
      Step x (.resume b) { x with waiting := update x.waiting b false }
  | sleep (b : B) : x.waiting b = true → x.asleep b = false → ¬ (x.buf b).Clean →
      Step x (.resume b) { x with asleep := update x.asleep b true }
  | kick (b : B) : Step x (.kick b) { x with asleep := update x.asleep b false }

omit [DecidableEq B] [Fintype B] in
/-- No request was made yet. -/
structure Quiet (x : Ide B) : Prop where
  queue : x.idequeue = none
  device : x.device = .idle
  waiting : ∀ b, x.waiting b = false
  history : x.submitted = [] ∧ x.completed = [] ∧ x.hist = []

end

/-! ### The queue -/

section
variable {B : Type}

/-- The controller is at the command for the first buffer of the queue. -/
def AtHead (x : Ide B) : List B → Prop
  | [] => x.device = .idle
  | b :: _ => x.device = .busy (x.buf b).cmd ∨ ∃ out, x.device = .raised (x.buf b).cmd out

/-- The queue is `l`. -/
structure Queue (x : Ide B) (l : List B) : Prop where
  queue : Chained x.qnext x.idequeue l
  nodup : l.Nodup
  waiting : ∀ {b}, b ∈ l → x.waiting b = true
  pending : ∀ {b}, b ∈ l → ¬ (x.buf b).Clean ∧ (x.buf b).dev = 1 ∧ (x.buf b).blockno < fssize
  done : ∀ {b}, x.waiting b = true → b ∉ l → (x.buf b).Clean
  device : x.AtHead l
  order : x.submitted = x.completed ++ l

/-- The request that the disk has done and the handler has not seen. -/
def doneNow (x : Ide B) : Option (B × Block) :=
  match x.device, x.idequeue with
  | .raised _ out, some b => some (b, out)
  | _, _ => none

/-- The requests that the disk has done. -/
def served (x : Ide B) : List B := x.completed ++ (x.doneNow.map Prod.fst).toList

end

section
variable {B : Type} {x y : Ide B} {l : List B} {b c : B} {out : Block}

theorem Quiet.queue_nil (h : x.Quiet) : x.Queue [] := by
  obtain ⟨hs, hc, -⟩ := h.history
  refine ⟨h.queue, List.nodup_nil, by simp, by simp, fun {b} hb => ?_, h.device, ?_⟩
  · rw [h.waiting b] at hb
    cases hb
  · rw [hs, hc]
    rfl

theorem AtHead.congr (h : x.AtHead l) (hdev : y.device = x.device)
    (hbuf : ∀ b ∈ l, y.buf b = x.buf b) : y.AtHead l := by
  cases l with
  | nil => exact hdev.trans h
  | cons b l =>
    show y.device = _ ∨ ∃ out, y.device = _
    rw [hdev, hbuf b List.mem_cons_self]
    exact h

variable [DecidableEq B]

theorem Queue.change {v : Buf} (h : x.Queue l) (hb : x.waiting b = false) :
    Queue { x with buf := update x.buf b v, hist := x.hist ++ [.change b v] } l := by
  have hne : ∀ {c}, x.waiting c = true → c ≠ b := by
    rintro c hc rfl
    rw [hb] at hc
    cases hc
  have hbuf : ∀ {c}, x.waiting c = true → update x.buf b v c = x.buf c :=
    fun hc => update_of_ne (hne hc) ..
  refine ⟨h.queue, h.nodup, h.waiting, fun {c} hc => ?_, fun {c} hc hl => ?_, ?_, h.order⟩
  · dsimp only
    rw [hbuf (h.waiting hc)]
    exact h.pending hc
  · show (update x.buf b v c).Clean
    rw [hbuf hc]
    exact h.done hc hl
  · exact h.device.congr rfl fun c hc => hbuf (h.waiting hc)

omit [DecidableEq B] in
theorem Queue.not_mem (h : x.Queue l) (hw : x.waiting b = false) : b ∉ l := by
  intro hb
  rw [h.waiting hb] at hw
  cases hw

/-- A request goes behind the others, and is started if there are none. -/
theorem Queue.iderw_queue [Fintype B] (h : x.Queue l) (hb : b ∉ l) :
    Chained (x.iderw b).qnext (x.iderw b).idequeue (l ++ [b]) ∧
    (x.iderw b).device = if l = [] then .busy (x.buf b).cmd else x.device := by
  have hlen : l.length ≤ Fintype.card B + 1 := Nat.le_succ_of_le h.nodup.length_le_card
  have hq := h.queue.enqueue h.nodup hb hlen
  have hstart : (enqueue x.qnext (Fintype.card B) x.idequeue b).1 = some b ↔ l = [] := by
    rw [hq.head]
    cases l with
    | nil => simp
    | cons c l =>
      have hcb : c ≠ b := fun hcb => hb (hcb ▸ List.mem_cons_self)
      simp [hcb]
  rw [iderw_eq]
  refine ⟨hq, ?_⟩
  dsimp only
  by_cases hl : l = []
  · rw [if_pos (hstart.mpr hl), if_pos hl]
  · rw [if_neg (mt hstart.mp hl), if_neg hl]

theorem Queue.iderw [Fintype B] (h : x.Queue l) (hw : x.waiting b = false)
    (hclean : ¬ (x.buf b).Clean) (hdev : (x.buf b).dev = 1) (hno : (x.buf b).blockno < fssize) :
    (x.iderw b).Queue (l ++ [b]) := by
  have hb := h.not_mem hw
  have hmem : ∀ {c}, c ∈ l ++ [b] ↔ c ∈ l ∨ c = b := by simp
  have hwait : ∀ {c}, update x.waiting b true c = true ↔ c = b ∨ x.waiting c = true := by
    intro c
    by_cases hc : c = b <;> simp [hc]
  obtain ⟨hqueue, hdevice⟩ := h.iderw_queue hb
  refine ⟨hqueue, ?_, fun {c} hc => ?_, fun {c} hc => ?_, fun {c} hc hl => ?_, ?_, ?_⟩
  · exact List.nodup_append.mpr ⟨h.nodup, List.nodup_singleton b, fun c hc d hd hcd =>
      hb (List.mem_singleton.mp hd ▸ hcd ▸ hc)⟩
  · rw [iderw_eq, hwait]
    exact (hmem.mp hc).elim (fun hc => .inr (h.waiting hc)) .inl
  · rw [iderw_eq]
    rcases hmem.mp hc with hc | rfl
    · exact h.pending hc
    · exact ⟨hclean, hdev, hno⟩
  · rw [iderw_eq, hwait] at hc
    rw [hmem, not_or] at hl
    rw [iderw_eq]
    exact h.done (hc.resolve_left hl.2) hl.1
  · cases l with
    | nil =>
      refine .inl ?_
      rw [hdevice, if_pos rfl, iderw_eq]
    | cons c l =>
      rw [if_neg nofun] at hdevice
      exact h.device.congr hdevice fun _ _ => by rw [iderw_eq]
  · rw [iderw_eq, h.order, List.append_assoc]

omit [DecidableEq B] in
theorem Queue.perform {cmd : IdeCmd} (h : x.Queue l) (hd : x.device = .busy cmd) :
    (x.perform cmd).Queue l := by
  have hfields : (x.perform cmd).qnext = x.qnext ∧ (x.perform cmd).idequeue = x.idequeue ∧
      (x.perform cmd).waiting = x.waiting ∧ (x.perform cmd).buf = x.buf ∧
      (x.perform cmd).submitted = x.submitted ∧ (x.perform cmd).completed = x.completed ∧
      ∃ out, (x.perform cmd).device = .raised cmd out := by
    cases cmd <;> exact ⟨rfl, rfl, rfl, rfl, rfl, rfl, _, rfl⟩
  obtain ⟨hqnext, hqueue, hwaiting, hbuf, hsub, hcomp, out, hout⟩ := hfields
  refine ⟨?_, h.nodup, ?_, ?_, ?_, ?_, ?_⟩
  · rw [hqnext, hqueue]
    exact h.queue
  · rw [hwaiting]
    exact h.waiting
  · rw [hbuf]
    exact h.pending
  · rw [hwaiting, hbuf]
    exact h.done
  · have hdev := h.device
    cases l with
    | nil =>
      rw [AtHead, hd] at hdev
      cases hdev
    | cons b l =>
      rcases hdev with hdev | ⟨out', hdev⟩
      · refine .inr ⟨out, ?_⟩
        rw [hd] at hdev
        rw [hout, hbuf, IdeDevice.busy.inj hdev]
      · rw [hd] at hdev
        cases hdev
  · rw [hsub, hcomp]
    exact h.order

/-- The first request is done, and the next is started. -/
theorem Queue.ideintr (h : x.Queue (b :: l)) (out : Block) : (x.ideintr out).Queue l ∧
    (x.ideintr out).buf = update x.buf b (doneBuf (x.buf b) out) ∧
    (x.ideintr out).disk = x.disk ∧ (x.ideintr out).hist = x.hist ∧
    (x.ideintr out).completed = x.completed ++ [b] ∧ (x.ideintr out).submitted = x.submitted ∧
    (x.ideintr out).doneNow = none := by
  obtain ⟨hb, hnd⟩ := List.nodup_cons.mp h.nodup
  have hchain : Chained x.qnext (x.qnext b) l := h.queue.2
  have hne : ∀ {c}, c ∈ l → c ≠ b := by
    rintro c hc rfl
    exact hb hc
  have hbuf : ∀ {c}, c ≠ b → update x.buf b (doneBuf (x.buf b) out) c = x.buf c :=
    fun hc => update_of_ne hc ..
  have hfields : (x.ideintr out).qnext = x.qnext ∧ (x.ideintr out).idequeue = x.qnext b ∧
      (x.ideintr out).waiting = x.waiting ∧
      (x.ideintr out).buf = update x.buf b (doneBuf (x.buf b) out) ∧
      (x.ideintr out).disk = x.disk ∧ (x.ideintr out).hist = x.hist ∧
      (x.ideintr out).submitted = x.submitted ∧
      (x.ideintr out).completed = x.completed ++ [b] ∧
      (x.ideintr out).device = match x.qnext b with
        | none => .idle
        | some c => .busy (update x.buf b (doneBuf (x.buf b) out) c).cmd := by
    unfold Ide.ideintr
    rw [h.queue.1]
    dsimp only [intrDone]
    cases x.qnext b <;> exact ⟨rfl, rfl, rfl, rfl, rfl, rfl, rfl, rfl, rfl⟩
  obtain ⟨hqnext, hqueue, hwaiting, hbufs, hdisk, hhist, hsub, hcomp, hdevice⟩ := hfields
  refine ⟨⟨?_, hnd, fun {c} hc => ?_, fun {c} hc => ?_, fun {c} hc hl => ?_, ?_, ?_⟩,
    hbufs, hdisk, hhist, hcomp, hsub, ?_⟩
  · rw [hqnext, hqueue]
    exact hchain
  · rw [hwaiting]
    exact h.waiting (List.mem_cons_of_mem _ hc)
  · rw [hbufs, hbuf (hne hc)]
    exact h.pending (List.mem_cons_of_mem _ hc)
  · rw [hwaiting] at hc
    rw [hbufs]
    by_cases hcb : c = b
    · rw [hcb, Function.update_self]
      exact ⟨rfl, rfl⟩
    · rw [hbuf hcb]
      exact h.done hc fun hm => (List.mem_cons.mp hm).elim hcb hl
  · cases l with
    | nil =>
      rw [hchain.head] at hdevice
      exact hdevice
    | cons c l =>
      refine .inl ?_
      rw [hdevice, hchain.1, hbufs]
  · rw [hsub, hcomp, h.order, List.append_assoc]
    rfl
  · rw [doneNow, hdevice]
    cases x.qnext b <;> rfl

theorem Queue.ret (h : x.Queue l) (hb : (x.buf b).Clean) :
    Queue { x with waiting := update x.waiting b false } l := by
  have hne : ∀ {c}, c ∈ l → c ≠ b := by
    rintro c hc rfl
    exact (h.pending hc).1 hb
  refine ⟨h.queue, h.nodup, fun {c} hc => ?_, h.pending, fun {c} hc hl => ?_,
    h.device.congr rfl fun _ _ => rfl, h.order⟩
  · exact (update_of_ne (hne hc) ..).trans (h.waiting hc)
  · by_cases hcb : c = b
    · rw [hcb]
      exact hb
    · exact h.done ((update_of_ne hcb ..).symm.trans hc) hl

omit [DecidableEq B] in
theorem Queue.asleep {f : B → Bool} (h : x.Queue l) : Queue { x with asleep := f } l :=
  ⟨h.queue, h.nodup, h.waiting, h.pending, h.done, h.device.congr rfl fun _ _ => rfl, h.order⟩

/-! ### The memory disk -/

/-- The buffers as the memory disk has them. -/
def view (x : Ide B) : B → Buf :=
  x.doneNow.elim x.buf fun r => update x.buf r.1 (doneBuf (x.buf r.1) r.2)

/-- The request of a caller that the disk has not done. -/
def unserved (x : Ide B) (l : List B) (b : B) : List (DiskOp B) :=
  if b ∈ l ∧ x.doneNow.map Prod.fst ≠ some b then [.iderw b] else []

/-- The memory disk `a` is where the history leads from `x0`; `ops` is what the callers did. -/
structure Refines (x0 : Ide B) (ops : List (DiskOp B)) (x : Ide B) (l : List B)
    (a : MemDisk B) : Prop where
  run : (⟨x0.disk, x0.buf⟩ : MemDisk B).run x.hist = some a
  disk : a.disk = x.disk
  bufs : a.buf = x.view
  requests : x.hist.filterMap DiskOp.request = x.served
  submitted : ops.filterMap DiskOp.request = x.submitted
  calls : ∀ b, ops.filter (DiskOp.on b) = x.hist.filter (DiskOp.on b) ++ x.unserved l b

variable {x0 : Ide B} {ops : List (DiskOp B)} {a : MemDisk B}

section
omit [DecidableEq B]

theorem doneNow_of_busy {cmd : IdeCmd} (h : x.device = .busy cmd) : x.doneNow = none := by
  rw [doneNow, h]

theorem doneNow_of_raised {cmd : IdeCmd} (h : x.device = .raised cmd out)
    (hq : x.idequeue = some b) : x.doneNow = some (b, out) := by
  rw [doneNow, h, hq]

/-- A request that is done is still the first in the queue. -/
theorem Queue.doneNow_head (h : x.Queue l) (hd : x.doneNow = some (b, out)) :
    l.head? = some b := by
  unfold doneNow at hd
  split at hd
  · next hdev hq =>
      cases hd
      rw [h.queue.head] at hq
      exact hq
  · cases hd

theorem Queue.doneNow_mem (h : x.Queue l) (hd : x.doneNow = some (b, out)) : b ∈ l :=
  List.mem_of_mem_head? (h.doneNow_head hd)

end

theorem Queue.view_eq (h : x.Queue l) (hb : b ∉ l) : x.view b = x.buf b := by
  unfold view
  cases hd : x.doneNow with
  | none => rfl
  | some r =>
    refine update_of_ne ?_ ..
    rintro rfl
    exact hb (h.doneNow_mem hd)

theorem unserved_of_not_mem (h : b ∉ l) : x.unserved l b = [] := if_neg fun hb => h hb.1

theorem MemDisk.run_append {m a a' : MemDisk B} {h : List (DiskOp B)} {op : DiskOp B}
    (hrun : m.run h = some a) (hop : a.exec op = some a') : m.run (h ++ [op]) = some a' := by
  unfold MemDisk.run at *
  rw [List.foldlM_append, hrun, Option.bind_eq_bind, Option.bind_some, List.foldlM_cons, hop]
  rfl

theorem Quiet.refines (h : x.Quiet) : Refines x [] x [] ⟨x.disk, x.buf⟩ := by
  obtain ⟨hs, hc, hh⟩ := h.history
  have hd : x.doneNow = none := by rw [doneNow, h.device]
  refine ⟨?_, rfl, ?_, ?_, ?_, fun b => ?_⟩
  · rw [hh]
    rfl
  · rw [view, hd]
    rfl
  · rw [hh, served, hc, hd]
    rfl
  · rw [hs]
    rfl
  · rw [hh, unserved_of_not_mem List.not_mem_nil]
    rfl

theorem Queue.doneNow_iderw [Fintype B] (h : x.Queue l) (hb : b ∉ l) :
    (x.iderw b).doneNow = x.doneNow := by
  obtain ⟨hqueue, hdevice⟩ := h.iderw_queue hb
  cases l with
  | nil =>
    have hidle : x.device = .idle := h.device
    rw [if_pos rfl] at hdevice
    rw [doneNow_of_busy hdevice, doneNow, hidle]
  | cons c l =>
    rw [if_neg nofun] at hdevice
    rw [doneNow, doneNow, hdevice, hqueue.1, h.queue.1]

theorem Refines.change {v : Buf} (h : Refines x0 ops x l a) (hq : x.Queue l)
    (hw : x.waiting b = false) :
    Refines x0 (ops ++ [.change b v])
      { x with buf := update x.buf b v, hist := x.hist ++ [.change b v] } l
      { a with buf := update a.buf b v } := by
  have hb := hq.not_mem hw
  refine ⟨MemDisk.run_append h.run rfl, h.disk, ?_, ?_, ?_, fun c => ?_⟩
  · rw [h.bufs]
    unfold view
    have hnow : doneNow { x with buf := update x.buf b v, hist := x.hist ++ [.change b v] } =
        x.doneNow := rfl
    rw [hnow]
    dsimp only
    cases hd : x.doneNow with
    | none => rfl
    | some r =>
      have hne : r.1 ≠ b := by
        rintro rfl
        exact hb (hq.doneNow_mem hd)
      dsimp only [Option.elim]
      rw [update_of_ne hne, Function.update_comm hne]
  · dsimp only
    rw [List.filterMap_append, h.requests]
    exact List.append_nil _
  · rw [List.filterMap_append, h.submitted]
    exact List.append_nil _
  · dsimp only
    rw [List.filter_append, List.filter_append, h.calls c, List.append_assoc, List.append_assoc]
    refine congrArg (List.append _) ?_
    change x.unserved l c ++ _ = _ ++ x.unserved l c
    by_cases hc : b = c
    · rw [← hc, unserved_of_not_mem hb, List.append_nil]
      rfl
    · have hon : [DiskOp.change b v].filter (DiskOp.on c) = [] := by simp [DiskOp.on, hc]
      rw [hon, List.append_nil]
      rfl

theorem Refines.stay {ops' : List (DiskOp B)} {l' : List B} (h : Refines x0 ops x l a)
    (hhist : y.hist = x.hist) (hdisk : y.disk = x.disk) (hview : y.view = x.view)
    (hserved : y.served = x.served) (hsub : ops'.filterMap DiskOp.request = y.submitted)
    (hcalls : ∀ b, ops'.filter (DiskOp.on b) = x.hist.filter (DiskOp.on b) ++ y.unserved l' b) :
    Refines x0 ops' y l' a := by
  refine ⟨?_, ?_, ?_, ?_, hsub, ?_⟩
  · rw [hhist]
    exact h.run
  · rw [hdisk]
    exact h.disk
  · rw [hview]
    exact h.bufs
  · rw [hhist, hserved]
    exact h.requests
  · rw [hhist]
    exact hcalls

theorem Refines.iderw [Fintype B] (h : Refines x0 ops x l a) (hq : x.Queue l)
    (hw : x.waiting b = false) :
    Refines x0 (ops ++ [.iderw b]) (x.iderw b) (l ++ [b]) a := by
  have hb := hq.not_mem hw
  have hnow : (x.iderw b).doneNow = x.doneNow := hq.doneNow_iderw hb
  refine h.stay ?_ ?_ ?_ ?_ ?_ fun c => ?_
  · rw [iderw_eq]
  · rw [iderw_eq]
  · rw [view, hnow, iderw_eq]
    rfl
  · rw [served, hnow, iderw_eq]
    rfl
  · rw [List.filterMap_append, h.submitted, iderw_eq]
    rfl
  · rw [List.filter_append, h.calls c, List.append_assoc]
    refine congrArg (List.append _) ?_
    by_cases hc : b = c
    · have hne : x.doneNow.map Prod.fst ≠ some b := by
        intro hd
        obtain ⟨r, hr, rfl⟩ := Option.map_eq_some_iff.mp hd
        exact hb (hq.doneNow_mem hr)
      rw [← hc, unserved_of_not_mem hb, unserved, hnow, if_pos ⟨by simp, hne⟩]
      simp [DiskOp.on]
    · have hon : [DiskOp.iderw b].filter (DiskOp.on c) = [] := by simp [DiskOp.on, hc]
      have hmem : c ∈ l ++ [b] ↔ c ∈ l := by simp [Ne.symm hc]
      rw [hon, List.append_nil, unserved, unserved, hnow]
      simp only [hmem]

omit [DecidableEq B] in
/-- The memory disk does with a request what the disk and the handler do. -/
theorem memIderw_cmd {d : Disk} {v : Buf} (hclean : ¬ v.Clean) (hdev : v.dev = 1)
    (hno : v.blockno < fssize) :
    memIderw d v = some (match v.cmd with
      | .read n => (d, doneBuf v (d n))
      | .write n data => (update d n data, doneBuf v data)) := by
  rw [memIderw, if_neg (by simp [hclean, hdev, hno]), Buf.sync, Buf.cmd]
  unfold doneBuf
  cases v.dirty <;> rfl

theorem Refines.perform (h : Refines x0 ops x (b :: l) a) (hq : x.Queue (b :: l))
    (hd : x.device = .busy (x.buf b).cmd) :
    ∃ a', Refines x0 ops (x.perform (x.buf b).cmd) (b :: l) a' := by
  obtain ⟨hclean, hdev, hno⟩ := hq.pending List.mem_cons_self
  have hnow := doneNow_of_busy hd
  have hbufs : a.buf = x.buf := by
    rw [h.bufs, view, hnow]
    rfl
  have hreq : x.hist.filterMap DiskOp.request = x.completed := by
    rw [h.requests, served, hnow]
    exact List.append_nil _
  have hexec := memIderw_cmd (d := a.disk) hclean hdev hno
  have hhist : ∀ cmd, (x.perform cmd).hist = x.hist ++ [.iderw b] := by
    rintro (n | ⟨n, data⟩) <;> exact congrArg (x.hist ++ ·) (by rw [hq.queue.1]; rfl)
  generalize hr : (match (x.buf b).cmd with
      | .read n => (a.disk, doneBuf (x.buf b) (a.disk n))
      | .write n data => (update a.disk n data, doneBuf (x.buf b) data)) = r at hexec
  -- the device now has what the handler will put into the buffer
  obtain ⟨out, hout, hdisk, hbuf⟩ : ∃ out, (x.perform (x.buf b).cmd).doneNow = some (b, out) ∧
      (x.perform (x.buf b).cmd).disk = r.1 ∧ r.2 = doneBuf (x.buf b) out := by
    subst hr
    rw [h.disk]
    cases (x.buf b).cmd with
    | read n => exact ⟨x.disk n, doneNow_of_raised rfl hq.queue.1, rfl, rfl⟩
    | write n data => exact ⟨data, doneNow_of_raised rfl hq.queue.1, rfl, rfl⟩
  have hsame : (x.perform (x.buf b).cmd).buf = x.buf ∧
      (x.perform (x.buf b).cmd).completed = x.completed ∧
      (x.perform (x.buf b).cmd).submitted = x.submitted := by
    cases (x.buf b).cmd <;> exact ⟨rfl, rfl, rfl⟩
  obtain ⟨hsbuf, hscomp, hssub⟩ := hsame
  refine ⟨⟨r.1, update a.buf b r.2⟩, ⟨?_, hdisk.symm, ?_, ?_, ?_, fun c => ?_⟩⟩
  · rw [hhist]
    refine MemDisk.run_append h.run ?_
    rw [MemDisk.exec, hbufs, hexec]
    rfl
  · rw [view, hout, hsbuf, hbufs, hbuf]
    rfl
  · rw [hhist, List.filterMap_append, hreq, served, hout, hscomp]
    rfl
  · rw [h.submitted, hssub]
  · rw [h.calls c, hhist, List.filter_append, List.append_assoc, unserved, unserved, hnow, hout]
    refine congrArg (List.append _) ?_
    by_cases hc : b = c
    · simp [DiskOp.on, hc]
    · simp [DiskOp.on, hc, Ne.symm hc]

theorem Refines.ideintr {cmd : IdeCmd} (h : Refines x0 ops x (b :: l) a) (hq : x.Queue (b :: l))
    (hd : x.device = .raised cmd out) : Refines x0 ops (x.ideintr out) l a := by
  have hnow := doneNow_of_raised hd hq.queue.1
  obtain ⟨hq', hbuf, hdisk, hhist, hcomp, hsub, hnow'⟩ := hq.ideintr out
  refine h.stay hhist hdisk ?_ ?_ ?_ fun c => ?_
  · rw [view, hnow', hbuf, view, hnow]
    rfl
  · rw [served, hnow', hcomp, served, hnow]
    exact List.append_nil _
  · rw [h.submitted, hsub]
  · have hb := (List.nodup_cons.mp hq.nodup).1
    rw [h.calls c, unserved, unserved, hnow, hnow']
    refine congrArg (List.append _) ?_
    by_cases hc : b = c
    · simp [hc ▸ hb, hc]
    · simp [hc, Ne.symm hc]

theorem Refines.idle (h : Refines x0 ops x l a) (hhist : y.hist = x.hist)
    (hdisk : y.disk = x.disk) (hbuf : y.buf = x.buf) (hcomp : y.completed = x.completed)
    (hsub : y.submitted = x.submitted) (hnow : y.doneNow = x.doneNow) :
    Refines x0 ops y l a := by
  refine h.stay hhist hdisk ?_ ?_ ?_ fun c => ?_
  · rw [view, view, hnow, hbuf]
  · rw [served, served, hnow, hcomp]
  · rw [h.submitted, hsub]
  · rw [h.calls, unserved, unserved, hnow]

/-! ### Runs -/

/-- The driver has a queue and follows the memory disk. -/
def Inv (x0 : Ide B) (ops : List (DiskOp B)) (x : Ide B) : Prop :=
  ∃ l a, x.Queue l ∧ Refines x0 ops x l a

omit [DecidableEq B] in
/-- A controller that is not idle is at the first request of the queue. -/
theorem Queue.head_of_device (h : x.Queue l) (hd : x.device ≠ .idle) : ∃ b l1, l = b :: l1 := by
  cases l with
  | nil => exact absurd h.device hd
  | cons b l1 => exact ⟨b, l1, rfl⟩

theorem Inv.step [Fintype B] {e : IdeLabel B} (h : Inv x0 ops x) (hs : x.Step e y) :
    Inv x0 (ops ++ e.op.toList) y := by
  obtain ⟨l, a, hq, hr⟩ := h
  have hops : ops ++ [] = ops := List.append_nil ops
  cases hs with
  | change b v hw => exact ⟨l, _, hq.change hw, hr.change hq hw⟩
  | iderw b hw hclean hdev hno => exact ⟨_, a, hq.iderw hw hclean hdev hno, hr.iderw hq hw⟩
  | perform cmd hd =>
    obtain ⟨b, l, rfl⟩ := hq.head_of_device (by rw [hd]; nofun)
    -- the command is that of the first request
    have hcmd : cmd = (x.buf b).cmd := by
      rcases hq.device with hb | ⟨out, hb⟩
      · exact IdeDevice.busy.inj (hd.symm.trans hb)
      · cases hd.symm.trans hb
    subst hcmd
    obtain ⟨a', hr'⟩ := hr.perform hq hd
    exact ⟨_, a', hq.perform hd, hops.symm ▸ hr'⟩
  | ideintr cmd out hd =>
    obtain ⟨b, l, rfl⟩ := hq.head_of_device (by rw [hd]; nofun)
    exact ⟨l, a, (hq.ideintr _).1, hops.symm ▸ hr.ideintr hq hd⟩
  | ret b hw ha hclean =>
    exact ⟨l, a, hq.ret hclean, hops.symm ▸ hr.idle rfl rfl rfl rfl rfl rfl⟩
  | sleep b hw ha hclean | kick b =>
    exact ⟨l, a, hq.asleep, hops.symm ▸ hr.idle rfl rfl rfl rfl rfl rfl⟩

theorem Inv.run [Fintype B] {ls : List (IdeLabel B)} (h : Trace Step x ls y) :
    ∀ {ops}, Inv x0 ops x → Inv x0 (ops ++ ls.filterMap IdeLabel.op) y := by
  induction h with
  | nil x =>
    intro ops hx
    exact (List.append_nil ops).symm ▸ hx
  | @cons x _ y e ls hs _ ih =>
    intro ops hx
    have hy := ih (hx.step hs)
    rw [List.append_assoc] at hy
    have hcons : (e :: ls).filterMap IdeLabel.op = e.op.toList ++ ls.filterMap IdeLabel.op := by
      rw [List.filterMap_cons]
      cases e.op <;> rfl
    exact hcons ▸ hy

/-- The driver refines the memory disk, for every interleaving of the callers with the disk and
its interrupts. What the memory disk did by now is a history in which the requests are in
their order, at least the completed ones and at most those that were made, and in which the
operations on a buffer that is not queued are those of its holders. -/
theorem queued_driver_refines [Fintype B] {ls : List (IdeLabel B)} (hx : x.Quiet)
    (h : Trace Step x ls y) :
    ∃ l, Chained y.qnext y.idequeue l ∧ l.Nodup ∧
      (∀ b, b ∈ l ↔ y.waiting b = true ∧ ¬ (y.buf b).Clean) ∧
      y.AtHead l ∧
      (ls.filterMap IdeLabel.op).filterMap DiskOp.request = y.completed ++ l ∧
      (∀ b z, y.Step (.resume b) z → z.waiting b = false → b ∉ l ∧ z.buf b = y.buf b ∧
        z.disk = y.disk) ∧
      ∃ hist a, (⟨x.disk, x.buf⟩ : MemDisk B).run hist = some a ∧
        a.disk = y.disk ∧ (∀ b, b ∉ l → a.buf b = y.buf b) ∧
        (∃ n, hist.filterMap DiskOp.request = y.completed ++ l.take n) ∧
        ∀ b, b ∉ l →
          hist.filter (DiskOp.on b) = (ls.filterMap IdeLabel.op).filter (DiskOp.on b) := by
  obtain ⟨l, a, hq, hr⟩ := Inv.run h (show Inv _ [] _ from ⟨[], _, hx.queue_nil, hx.refines⟩)
  rw [List.nil_append] at hr
  refine ⟨l, hq.queue, hq.nodup, fun b => ⟨fun hb => ⟨hq.waiting hb, (hq.pending hb).1⟩, ?_⟩,
    hq.device, hr.submitted.trans hq.order, ?_, y.hist, a, hr.run, hr.disk, ?_, ?_, ?_⟩
  · rintro ⟨hw, hclean⟩
    by_contra hb
    exact hclean (hq.done hw hb)
  · intro b z hs hz
    cases hs with
    | ret _ _ _ hclean => exact ⟨fun hb => (hq.pending hb).1 hclean, rfl, rfl⟩
    | sleep _ hw => cases hw.symm.trans hz
  · intro b hb
    rw [hr.bufs, hq.view_eq hb]
  · rw [hr.requests, served]
    cases hd : y.doneNow with
    | none => exact ⟨0, rfl⟩
    | some r =>
      obtain ⟨l', rfl⟩ := List.head?_eq_some_iff.mp (hq.doneNow_head hd)
      exact ⟨1, rfl⟩
  · intro b hb
    rw [hr.calls b, unserved_of_not_mem hb, List.append_nil]

end

/-- A block that is to be written, and a buffer to read it into. -/
def writeAndRead : Ide (Fin 2) where
  buf b := ⟨false, b.val = 0, 1, 5, fun _ => if b.val = 0 then 7#32 else 0#32⟩
  disk _ _ := 0#32
  idequeue := none
  qnext _ := none
  device := .idle
  waiting _ := false
  asleep _ := false
  submitted := []
  completed := []
  hist := []

theorem queued_driver_refines_two : ∃ (y : Ide (Fin 2)) (l : List (Fin 2)) (a : MemDisk (Fin 2)),
    Trace Step writeAndRead [.iderw 0, .iderw 1, .perform, .ideintr, .perform, .resume 0] y ∧
    y.AtHead l ∧ [0, 1] = y.completed ++ l ∧ a.disk = y.disk ∧
    (0 ∉ l → a.buf 0 = y.buf 0) ∧ y.completed = [0] := by
  have hclean : ∀ b, ¬ (writeAndRead.buf b).Clean := fun b hb => absurd hb.1 nofun
  obtain ⟨y, htrace, hcomp⟩ : ∃ y, Trace Step writeAndRead
      [.iderw 0, .iderw 1, .perform, .ideintr, .perform, .resume 0] y ∧ y.completed = [0] :=
    ⟨_, .cons (.iderw 0 rfl (hclean 0) rfl (by decide)) (.cons (.iderw 1 rfl (hclean 1) rfl
      (by decide)) (.cons (.perform _ rfl) (.cons (.ideintr _ _ rfl) (.cons (.perform _ rfl)
      (.cons (.ret 0 rfl rfl ⟨rfl, rfl⟩) (.nil _)))))), rfl⟩
  obtain ⟨l, -, -, -, hhead, hreq, -, -, a, -, hdisk, hbuf, -⟩ :=
    queued_driver_refines ⟨rfl, rfl, fun _ => rfl, rfl, rfl, rfl⟩ htrace
  exact ⟨y, l, a, htrace, hhead, hreq, hdisk, hbuf 0, hcomp⟩

end Ide

end Xv6
