import Xv6.Bytes
import Xv6.Lib.Reach
import Xv6.Lib.Ring

/-!
# Xv6.Pipe

`pipewrite`, `piperead` and `pipeclose` on one pipe, by any number of processes, and `kill`.

A step is what a process does in one of these calls while it holds `p->lock`: from the
start of the call, or from where it was asleep, to where it sleeps again or returns. A
process that has been made `RUNNABLE` again goes on when it gets the lock, in any order
with the others. `kill` may come at any time, also when its target has already looked at
`killed` and is about to sleep (`late`).

Beside the state of the program there is a history: the bytes stored, with the call that
stored each, the bytes delivered to readers, and what the calls of `pipewrite` returned.
-/

namespace Xv6

open Function (update update_self update_of_ne)

/-! ### The program -/

/-- `PIPESIZE`. -/
def pipesize : Nat := 512

/-- `struct pipe`. -/
structure Pipe extends Ring Byte 32 where
  readopen : Bool
  writeopen : Bool

/-- `p->nwrite == p->nread + PIPESIZE`. -/
abbrev Pipe.isFull (p : Pipe) : Prop := p.toRing.Full pipesize

/-- `p->nread == p->nwrite`. -/
abbrev Pipe.isEmpty (p : Pipe) : Prop := p.toRing.Empty

/-- The bytes that can be stored before the pipe is full. -/
def Pipe.room (p : Pipe) : Nat := pipesize - (p.nwrite - p.nread).toNat

/-- The loop of `pipewrite` until the pipe is full, and how many bytes it has stored. -/
def Pipe.fill (p : Pipe) : List Byte → Pipe × Nat
  | [] => (p, 0)
  | b :: bs =>
    if p.isFull then (p, 0)
    else
      let r := Pipe.fill { p with toRing := p.toRing.store pipesize b } bs
      (r.1, r.2 + 1)

/-- The loop of `piperead`, for at most `n` bytes. -/
def Pipe.drain (p : Pipe) : Nat → Pipe × List Byte
  | 0 => (p, [])
  | n + 1 =>
    if p.isEmpty then (p, [])
    else
      let r := Pipe.drain { p with toRing := p.toRing.next } n
      (r.1, p.toRing.front pipesize :: r.2)

/-- What processes sleep on: the addresses of the two counters. -/
inductive PipeChan
  | nread
  | nwrite
  deriving DecidableEq

/-- What a process is doing with the pipe. -/
inductive PipePhase
  | idle
  /-- In `pipewrite`, the call with this number, with this `i`. -/
  | write (id : Nat) (buf : List Byte) (i : Nat)
  /-- In `piperead`. -/
  | read (n : Nat)

/-- The pipe, the processes that use it, and the history. -/
structure PipeSys (P : Type) where
  pipe : Pipe
  phase : P → PipePhase
  /-- `SLEEPING`, on this channel. -/
  asleep : P → Option PipeChan
  killed : P → Bool
  /-- The buffers of the calls of `pipewrite`. -/
  bufs : List (List Byte)
  /-- The bytes stored, with the number of the call. -/
  log : List (Nat × Byte)
  delivered : List Byte
  /-- What the calls of `pipewrite` have returned. -/
  rets : List (Nat × Int)

inductive PipeLabel (P : Type)
  | write (p : P) (buf : List Byte)
  | read (p : P) (n : Nat)
  | run (p : P) (late : Bool)
  | close (writable : Bool)
  | kill (p : P)

namespace PipeSys

variable {P : Type}

/-- `wakeup`. -/
def wakeup (x : PipeSys P) (c : PipeChan) : PipeSys P :=
  { x with asleep := fun p => if x.asleep p = some c then none else x.asleep p }

variable [DecidableEq P]

/-- `sleep`; `kill` may have come after the test of `killed`. -/
def sleep (x : PipeSys P) (p : P) (c : PipeChan) (late : Bool) : PipeSys P :=
  { x with
    asleep := update x.asleep p (some c)
    killed := update x.killed p (x.killed p || late) }

def setPhase (x : PipeSys P) (p : P) (ph : PipePhase) : PipeSys P :=
  { x with phase := update x.phase p ph }

/-- A call of `pipewrite` returns. -/
def ret (x : PipeSys P) (p : P) (id : Nat) (r : Int) : PipeSys P :=
  { x with phase := update x.phase p .idle, rets := x.rets ++ [(id, r)] }

/-- The bytes that a call stores are recorded. -/
def stored (x : PipeSys P) (q : Pipe) (id : Nat) (bytes : List Byte) : PipeSys P :=
  { x with pipe := q, log := x.log ++ bytes.map fun b => (id, b) }

/-- `pipewrite` from `addr[i]` on. -/
def pipewrite (x : PipeSys P) (p : P) (late : Bool) (id : Nat) (buf : List Byte) (i : Nat) :
    PipeSys P :=
  let r := x.pipe.fill (buf.drop i)
  let y := x.stored r.1 id ((buf.drop i).take r.2)
  if i + r.2 = buf.length then (y.wakeup .nread).ret p id buf.length
  else if r.1.readopen = false ∨ x.killed p = true then y.ret p id (-1)
  else ((y.wakeup .nread).sleep p .nwrite late).setPhase p (.write id buf (i + r.2))

/-- `piperead`. -/
def piperead (x : PipeSys P) (p : P) (late : Bool) (n : Nat) : PipeSys P :=
  if x.pipe.isEmpty ∧ x.pipe.writeopen = true then
    if x.killed p = true then x.setPhase p .idle
    else x.sleep p .nread late
  else
    let r := x.pipe.drain n
    let y := { x with pipe := r.1, delivered := x.delivered ++ r.2 }
    (y.wakeup .nwrite).setPhase p .idle

/-- `pipeclose`. -/
def pipeclose (x : PipeSys P) (writable : Bool) : PipeSys P :=
  if writable then { x with pipe := { x.pipe with writeopen := false } }.wakeup .nread
  else { x with pipe := { x.pipe with readopen := false } }.wakeup .nwrite

def exec (x : PipeSys P) : PipeLabel P → PipeSys P
  | .write p buf =>
    { x with phase := update x.phase p (.write x.bufs.length buf 0), bufs := x.bufs ++ [buf] }
  | .read p n => x.setPhase p (.read n)
  | .run p late =>
    match x.phase p with
    | .idle => x
    | .write id buf i => x.pipewrite p late id buf i
    | .read n => x.piperead p late n
  | .close writable => x.pipeclose writable
  | .kill p => { x with killed := update x.killed p true, asleep := update x.asleep p none }

/-- A process begins a call when it is in none, and goes on when it is not asleep. -/
def Enabled (x : PipeSys P) : PipeLabel P → Prop
  | .write p _ | .read p _ => x.phase p = .idle ∧ x.asleep p = none
  | .run p _ => x.phase p ≠ .idle ∧ x.asleep p = none
  | .close _ | .kill _ => True

def Step (x : PipeSys P) (l : PipeLabel P) (y : PipeSys P) : Prop := x.Enabled l ∧ y = x.exec l

/-- As `pipealloc` makes the pipe. -/
structure Fresh (x : PipeSys P) : Prop where
  counters : x.pipe.nread = 0#32 ∧ x.pipe.nwrite = 0#32
  isOpen : x.pipe.readopen = true ∧ x.pipe.writeopen = true
  idle : ∀ p, x.phase p = .idle ∧ x.asleep p = none
  history : x.bufs = [] ∧ x.log = [] ∧ x.delivered = [] ∧ x.rets = []

end PipeSys

/-! ### The two loops -/

theorem pipesize_dvd : pipesize ∣ 2 ^ 32 := by decide

theorem pipesize_lt : pipesize < 2 ^ 32 := by decide

namespace Pipe

variable {p : Pipe} {put got : List Byte}

theorem fill_spec : ∀ {l : List Byte} {p : Pipe} {put : List Byte},
    p.toRing.Holds pipesize put got →
    (p.fill l).1.toRing.Holds pipesize (put ++ l.take (p.fill l).2) got ∧
    (p.fill l).2 ≤ l.length := by
  intro l
  induction l with
  | nil =>
    intro p put h
    simpa [fill] using h
  | cons b bs ih =>
    intro p put h
    by_cases hfull : p.isFull
    · simpa [fill, hfull] using h
    · obtain ⟨hh, hle⟩ := ih (p := { p with toRing := p.toRing.store pipesize b })
        (h.store pipesize_dvd pipesize_lt (a := b) hfull)
      rw [fill, if_neg hfull]
      dsimp only
      refine ⟨?_, Nat.succ_le_succ hle⟩
      rw [List.take_succ_cons]
      rwa [List.append_assoc] at hh

/-- It stops before the end only when the pipe is full. -/
theorem fill_stops : ∀ {l : List Byte} {p : Pipe}, (p.fill l).2 < l.length →
    (p.fill l).1.isFull := by
  intro l
  induction l with
  | nil => exact fun h => absurd h (Nat.not_lt_zero _)
  | cons b bs ih =>
    intro p h
    unfold fill at h ⊢
    split
    · assumption
    next hfull =>
      rw [if_neg hfull] at h
      exact ih (Nat.lt_of_succ_lt_succ h)

/-- What there is room for is stored. -/
theorem fill_room {l put : List Byte} (h : p.toRing.Holds pipesize put got)
    (hroom : l.length ≤ p.room) : (p.fill l).2 = l.length := by
  obtain ⟨hholds, hle⟩ := fill_spec (l := l) h
  by_contra hne
  have hfull := (hholds.full_iff pipesize_lt).mp (fill_stops (by omega))
  have hlow := h.le
  rw [List.length_append, List.length_take] at hfull
  rw [room, h.sub_toNat pipesize_lt] at hroom
  omega

theorem fill_open : ∀ {l : List Byte} {p : Pipe},
    (p.fill l).1.readopen = p.readopen ∧ (p.fill l).1.writeopen = p.writeopen := by
  intro l
  induction l with
  | nil => exact fun {p} => ⟨rfl, rfl⟩
  | cons b bs ih =>
    intro p
    unfold fill
    split
    · exact ⟨rfl, rfl⟩
    · exact ih

theorem fill_of_zero {l : List Byte} (h : (p.fill l).2 = 0) : (p.fill l).1 = p := by
  cases l with
  | nil => rfl
  | cons b bs =>
    unfold fill at h ⊢
    split
    · rfl
    next hfull =>
      rw [if_neg hfull] at h
      cases h

theorem fill_of_full {l : List Byte} (h : p.isFull) : p.fill l = (p, 0) := by
  cases l with
  | nil => rfl
  | cons b bs => rw [fill, if_pos h]

theorem drain_spec : ∀ {n : Nat} {p : Pipe} {got : List Byte},
    p.toRing.Holds pipesize put got →
    (p.drain n).1.toRing.Holds pipesize put (got ++ (p.drain n).2) := by
  intro n
  induction n with
  | zero =>
    intro p got h
    simpa [drain] using h
  | succ n ih =>
    intro p got h
    by_cases hempty : p.isEmpty
    · simpa [drain, hempty] using h
    · have hh := ih (p := { p with toRing := p.toRing.next })
        (h.take pipesize_dvd pipesize_lt hempty)
      rw [drain, if_neg hempty]
      rwa [List.append_assoc] at hh

end Pipe

/-! ### A queue of bytes -/

/-- The bytes that a call has stored. -/
def bytesOf (log : List (Nat × Byte)) (id : Nat) : List Byte :=
  (log.filter fun e => e.1 = id).map Prod.snd

theorem bytesOf_append (log : List (Nat × Byte)) (id id' : Nat) (bytes : List Byte) :
    bytesOf (log ++ bytes.map fun b => (id, b)) id' =
      if id' = id then bytesOf log id' ++ bytes else bytesOf log id' := by
  unfold bytesOf
  rw [List.filter_append, List.map_append]
  by_cases h : id' = id
  · subst h
    simp [List.filter_map, Function.comp_def]
  · simp [List.filter_map, Function.comp_def, Ne.symm h, h]

namespace PipeSys

variable {P : Type} {x y : PipeSys P} {p q : P} {id : Nat}

/-- The ring is the queue of the history, and every call has stored the first part of its
buffer. -/
structure Fifo (x : PipeSys P) : Prop where
  ring : x.pipe.toRing.Holds pipesize (x.log.map Prod.snd) x.delivered
  calls : ∀ {id buf}, x.bufs[id]? = some buf → bytesOf x.log id <+: buf
  -- a call that has not begun has stored nothing
  later : ∀ {id}, x.bufs.length ≤ id → bytesOf x.log id = [] ∧ ∀ r, (id, r) ∉ x.rets
  busy : ∀ {p id buf i}, x.phase p = .write id buf i →
    x.bufs[id]? = some buf ∧ i ≤ buf.length ∧ bytesOf x.log id = buf.take i ∧
      ∀ r, (id, r) ∉ x.rets
  alone : ∀ {p q id buf i buf' j}, x.phase p = .write id buf i → x.phase q = .write id buf' j →
    p = q
  whole : ∀ {id buf r}, (id, r) ∈ x.rets → 0 ≤ r → x.bufs[id]? = some buf → bytesOf x.log id = buf

theorem Fresh.fifo (h : x.Fresh) : x.Fifo := by
  obtain ⟨hbufs, hlog, hdel, hrets⟩ := h.history
  obtain ⟨hr, hw⟩ := h.counters
  refine ⟨?_, ?_, ?_, fun {p _ _ _} hp => ?_, fun {p _ _ _ _ _ _} hp => ?_, ?_⟩
  · rw [hlog, hdel]
    exact ⟨hr, hw, List.prefix_refl _, by simp, fun _ hk => by simp at hk⟩
  · rw [hbufs]
    simp
  · rw [hlog, hrets]
    simp [bytesOf]
  · rw [(h.idle p).1] at hp
    cases hp
  · rw [(h.idle p).1] at hp
    cases hp
  · rw [hrets]
    simp

theorem Fifo.congr (h : x.Fifo) (hpipe : y.pipe.toRing = x.pipe.toRing) (hphase : y.phase = x.phase)
    (hbufs : y.bufs = x.bufs) (hlog : y.log = x.log) (hdel : y.delivered = x.delivered)
    (hrets : y.rets = x.rets) : y.Fifo := by
  obtain ⟨h1, h2, h3, h4, h5, h6⟩ := h
  refine ⟨?_, ?_, ?_, ?_, ?_, ?_⟩
  · rwa [hpipe, hlog, hdel]
  · rwa [hbufs, hlog]
  · rwa [hbufs, hlog, hrets]
  · rwa [hphase, hbufs, hlog, hrets]
  · rwa [hphase]
  · rwa [hrets, hbufs, hlog]

theorem Fifo.wakeup (h : x.Fifo) (c : PipeChan) : (x.wakeup c).Fifo :=
  h.congr rfl rfl rfl rfl rfl rfl

variable [DecidableEq P]

section
variable (h : x.Fifo)
include h

theorem Fifo.setPhase {ph : PipePhase} (hph : ∀ id buf i, ph ≠ .write id buf i) :
    (x.setPhase p ph).Fifo := by
  have hother : ∀ {q id buf i}, (x.setPhase p ph).phase q = .write id buf i →
      x.phase q = .write id buf i := by
    intro q id buf i hq
    change update x.phase p ph q = _ at hq
    by_cases hqp : q = p
    · subst hqp
      rw [update_self] at hq
      exact absurd hq (hph _ _ _)
    · rwa [update_of_ne hqp] at hq
  exact ⟨h.ring, h.calls, h.later, fun hq => h.busy (hother hq),
    fun hp hq => h.alone (hother hp) (hother hq), h.whole⟩

theorem Fifo.stored {buf : List Byte} {i k : Nat} {r : Pipe} (hp : x.phase p = .write id buf i)
    (hk : k ≤ (buf.drop i).length)
    (hr : r.toRing.Holds pipesize (x.log.map Prod.snd ++ (buf.drop i).take k) x.delivered) :
    ((x.stored r id ((buf.drop i).take k)).setPhase p (.write id buf (i + k))).Fifo := by
  obtain ⟨hbuf, hi, hbytes, hret⟩ := h.busy hp
  have hlog : ∀ id', bytesOf (x.log ++ ((buf.drop i).take k).map fun b => (id, b)) id' =
      if id' = id then buf.take (i + k) else bytesOf x.log id' := by
    intro id'
    rw [bytesOf_append]
    by_cases hid : id' = id
    · rw [if_pos hid, if_pos hid, hid, hbytes, List.take_add]
    · rw [if_neg hid, if_neg hid]
  have hlt : id < x.bufs.length := (List.getElem?_eq_some_iff.mp hbuf).1
  have hother : ∀ {q id' buf' j}, q ≠ p → update x.phase p (.write id buf (i + k)) q =
      .write id' buf' j → x.phase q = .write id' buf' j ∧ id' ≠ id := by
    intro q id' buf' j hq hph
    rw [update_of_ne hq] at hph
    refine ⟨hph, fun hid => hq ?_⟩
    rw [hid] at hph
    exact h.alone hph hp
  refine ⟨?_, fun {id' buf'} hbuf' => ?_, fun {id'} hid' => ?_, fun {q id' buf' j} hq => ?_,
    fun {q q' id' buf' j buf'' j'} hq hq' => ?_, fun {id' buf' v} hv hpos hbuf' => ?_⟩
  · show r.toRing.Holds pipesize (List.map Prod.snd (x.log ++ _)) x.delivered
    rw [List.map_append, List.map_map]
    simpa [Function.comp_def] using hr
  · show bytesOf (x.log ++ _) id' <+: buf'
    rw [hlog]
    by_cases hid : id' = id
    · rw [if_pos hid]
      rw [hid] at hbuf'
      cases hbuf.symm.trans hbuf'
      exact List.take_prefix ..
    · rw [if_neg hid]
      exact h.calls hbuf'
  · have hne : id' ≠ id := fun he => by
      rw [he] at hid'
      exact absurd hlt (Nat.not_lt.mpr hid')
    show bytesOf (x.log ++ _) id' = [] ∧ _
    rw [hlog, if_neg hne]
    exact h.later hid'
  · show x.bufs[id']? = some buf' ∧ j ≤ buf'.length ∧ bytesOf (x.log ++ _) id' = buf'.take j ∧ _
    rw [hlog]
    by_cases hqp : q = p
    · subst hqp
      obtain ⟨rfl, rfl, rfl⟩ := PipePhase.write.inj ((update_self ..).symm.trans hq)
      rw [if_pos rfl]
      rw [List.length_drop] at hk
      exact ⟨hbuf, by omega, rfl, hret⟩
    · obtain ⟨hq, hne⟩ := hother hqp hq
      rw [if_neg hne]
      exact h.busy hq
  · by_cases hqp : q = p <;> by_cases hqp' : q' = p
    · rw [hqp, hqp']
    · subst hqp
      obtain ⟨rfl, -, -⟩ := PipePhase.write.inj ((update_self ..).symm.trans hq)
      exact absurd rfl (hother hqp' hq').2
    · subst hqp'
      obtain ⟨rfl, -, -⟩ := PipePhase.write.inj ((update_self ..).symm.trans hq')
      exact absurd rfl (hother hqp hq).2
    · exact h.alone (hother hqp hq).1 (hother hqp' hq').1
  · show bytesOf (x.log ++ _) id' = buf'
    have hne : id' ≠ id := fun hid => hret v (hid ▸ hv)
    rw [hlog, if_neg hne]
    exact h.whole hv hpos hbuf'

/-- A call of `pipewrite` returns; if it does not fail, it has stored all bytes. -/
theorem Fifo.ret {buf : List Byte} {i : Nat} {v : Int} (hp : x.phase p = .write id buf i)
    (hv : 0 ≤ v → i = buf.length) : (x.ret p id v).Fifo := by
  obtain ⟨hbuf, hi, hbytes, hret⟩ := h.busy hp
  have hlt : id < x.bufs.length := (List.getElem?_eq_some_iff.mp hbuf).1
  have hmem : ∀ {id' r}, (id', r) ∈ x.rets ++ [(id, v)] ↔
      (id', r) ∈ x.rets ∨ (id' = id ∧ r = v) := by simp
  have hother : ∀ {q id' buf' j}, update x.phase p .idle q = .write id' buf' j →
      x.phase q = .write id' buf' j ∧ id' ≠ id := by
    intro q id' buf' j hq
    by_cases hqp : q = p
    · subst hqp
      rw [update_self] at hq
      cases hq
    · rw [update_of_ne hqp] at hq
      refine ⟨hq, fun hid => hqp ?_⟩
      rw [hid] at hq
      exact h.alone hq hp
  refine ⟨h.ring, h.calls, fun {id'} hid' => ⟨(h.later hid').1, fun r hr => ?_⟩,
    fun {q id' buf' j} hq => ?_, fun hq hq' => h.alone (hother hq).1 (hother hq').1,
    fun {id' buf' r} hr hpos hbuf' => ?_⟩
  · rcases hmem.mp hr with hr | ⟨hid, -⟩
    · exact (h.later hid').2 r hr
    · rw [hid] at hid'
      exact absurd hlt (Nat.not_lt.mpr hid')
  · obtain ⟨hq, hne⟩ := hother hq
    obtain ⟨h1, h2, h3, h4⟩ := h.busy hq
    refine ⟨h1, h2, h3, fun r hr => ?_⟩
    rcases hmem.mp hr with hr | ⟨hid, -⟩
    · exact h4 r hr
    · exact hne hid
  · rcases hmem.mp hr with hr | ⟨hid, hrv⟩
    · exact h.whole hr hpos hbuf'
    · show bytesOf x.log id' = buf'
      rw [hid] at hbuf' ⊢
      cases hbuf.symm.trans hbuf'
      rw [hbytes, hv (hrv ▸ hpos), List.take_length]

theorem Fifo.pipewrite {late : Bool} {buf : List Byte} {i : Nat}
    (hp : x.phase p = .write id buf i) : (x.pipewrite p late id buf i).Fifo := by
  obtain ⟨hring, hle⟩ := Pipe.fill_spec (l := buf.drop i) h.ring
  have hst := h.stored hp hle hring
  have hself : ((x.stored (x.pipe.fill (buf.drop i)).1 id
      ((buf.drop i).take (x.pipe.fill (buf.drop i)).2)).setPhase p
      (.write id buf (i + (x.pipe.fill (buf.drop i)).2))).phase p =
        .write id buf (i + (x.pipe.fill (buf.drop i)).2) := update_self ..
  have hidle : ∀ {ph}, update (update x.phase p ph) p .idle = update x.phase p .idle :=
    Function.update_idem ..
  unfold PipeSys.pipewrite
  dsimp only
  split
  next hall =>
    refine ((hst.ret hself (v := buf.length) fun _ => hall).wakeup .nread).congr rfl ?_
      rfl rfl rfl rfl
    exact hidle.symm
  next =>
    split
    · refine (hst.ret hself (v := -1) fun hneg => absurd hneg (by decide)).congr rfl ?_
        rfl rfl rfl rfl
      exact hidle.symm
    · exact hst.congr rfl rfl rfl rfl rfl rfl

theorem Fifo.piperead {late : Bool} {n : Nat} : (x.piperead p late n).Fifo := by
  have hring := Pipe.drain_spec (n := n) h.ring
  unfold PipeSys.piperead
  split
  · split
    · exact h.setPhase nofun
    · exact h.congr rfl rfl rfl rfl rfl rfl
  · refine Fifo.setPhase (Fifo.wakeup ?_ _) nofun
    exact ⟨hring, h.calls, h.later, h.busy, h.alone, h.whole⟩

theorem Fifo.begin (buf : List Byte) : (x.exec (.write p buf)).Fifo := by
  have hbufs : ∀ {id buf'}, (x.bufs ++ [buf])[id]? = some buf' →
      x.bufs[id]? = some buf' ∨ (id = x.bufs.length ∧ buf' = buf) := by
    intro id buf' hid
    rcases Nat.lt_trichotomy id x.bufs.length with hlt | rfl | hgt
    · rw [List.getElem?_append_left hlt] at hid
      exact .inl hid
    · simp at hid
      exact .inr ⟨rfl, hid.symm⟩
    · rw [List.getElem?_eq_none (by simp; omega)] at hid
      cases hid
  have hnew := h.later (Nat.le_refl x.bufs.length)
  have hother : ∀ {q id' buf' j}, q ≠ p →
      update x.phase p (.write x.bufs.length buf 0) q = .write id' buf' j →
      x.phase q = .write id' buf' j ∧ id' < x.bufs.length := by
    intro q id' buf' j hq hph
    rw [update_of_ne hq] at hph
    exact ⟨hph, (List.getElem?_eq_some_iff.mp (h.busy hph).1).1⟩
  refine ⟨h.ring, fun {id buf'} hid => ?_, fun {id} hid => ?_, fun {q id buf' j} hq => ?_,
    fun {q q' id buf' j buf'' j'} hq hq' => ?_, fun {id buf' r} hr hpos hid => ?_⟩
  · rcases hbufs hid with hid | ⟨rfl, -⟩
    · exact h.calls hid
    · show bytesOf x.log _ <+: _
      rw [hnew.1]
      exact List.nil_prefix
  · refine h.later (Nat.le_of_lt (Nat.lt_of_lt_of_le ?_ hid))
    show x.bufs.length < (x.bufs ++ [buf]).length
    simp
  · show (x.bufs ++ [buf])[id]? = some buf' ∧ _
    by_cases hqp : q = p
    · subst hqp
      obtain ⟨rfl, rfl, rfl⟩ := PipePhase.write.inj ((update_self ..).symm.trans hq)
      exact ⟨by simp, Nat.zero_le _, hnew.1, hnew.2⟩
    · obtain ⟨hq, hlt⟩ := hother hqp hq
      rw [List.getElem?_append_left hlt]
      exact h.busy hq
  · by_cases hqp : q = p <;> by_cases hqp' : q' = p
    · rw [hqp, hqp']
    · subst hqp
      obtain ⟨rfl, -, -⟩ := PipePhase.write.inj ((update_self ..).symm.trans hq)
      exact absurd (hother hqp' hq').2 (Nat.lt_irrefl _)
    · subst hqp'
      obtain ⟨rfl, -, -⟩ := PipePhase.write.inj ((update_self ..).symm.trans hq')
      exact absurd (hother hqp hq).2 (Nat.lt_irrefl _)
    · exact h.alone (hother hqp hq).1 (hother hqp' hq').1
  · rcases hbufs hid with hid | ⟨rfl, -⟩
    · exact h.whole hr hpos hid
    · exact absurd hr (hnew.2 r)

theorem Fifo.step {l : PipeLabel P} (hs : x.Step l y) : y.Fifo := by
  obtain ⟨hen, rfl⟩ := hs
  cases l with
  | write p buf => exact h.begin buf
  | read p n => exact h.setPhase nofun
  | run p late =>
    rw [exec]
    cases hp : x.phase p with
    | idle => exact h
    | write id buf i => exact h.pipewrite hp
    | read n => exact h.piperead
  | close writable => cases writable <;> exact h.congr rfl rfl rfl rfl rfl rfl
  | kill p => exact h.congr rfl rfl rfl rfl rfl rfl

theorem Fifo.run {ls : List (PipeLabel P)} (hrun : Trace Step x ls y) : y.Fifo := by
  induction hrun with
  | nil => exact h
  | cons hs _ ih => exact ih (h.step hs)

end

/-- In every state the counters differ, modulo `2 ^ 32`, by at most the size of the pipe; the
bytes delivered are the first of those stored; and each call has stored the first bytes of
its buffer, and all of them if it returned their number. -/
theorem pipe_is_fifo {ls : List (PipeLabel P)} (hx : x.Fresh) (hrun : Trace Step x ls y) :
    (y.pipe.nwrite - y.pipe.nread).toNat ≤ pipesize ∧
    y.delivered <+: y.log.map Prod.snd ∧
    ∀ id buf, y.bufs[id]? = some buf → bytesOf y.log id <+: buf ∧
      ((id, (buf.length : Int)) ∈ y.rets → bytesOf y.log id = buf) := by
  have hy := hx.fifo.run hrun
  refine ⟨?_, hy.ring.taken, fun id buf hbuf => ⟨hy.calls hbuf, fun hr => ?_⟩⟩
  · rw [hy.ring.sub_toNat pipesize_lt]
    have := hy.ring.bound
    omega
  · exact hy.whole hr (Int.natCast_nonneg _) hbuf

/-- A new pipe, used by two processes. -/
def fresh : PipeSys (Fin 2) where
  pipe := ⟨⟨fun _ => 0, 0#32, 0#32⟩, true, true⟩
  phase _ := .idle
  asleep _ := none
  killed _ := false
  bufs := []
  log := []
  delivered := []
  rets := []

theorem fresh_fresh : fresh.Fresh :=
  ⟨⟨rfl, rfl⟩, ⟨rfl, rfl⟩, fun _ => ⟨rfl, rfl⟩, rfl, rfl, rfl, rfl⟩

/-- Two bytes are written and one is read. -/
theorem pipe_is_fifo_two_bytes : ∃ y, Trace Step fresh
      [.write 0 [1, 2], .run 0 false, .read 1 1, .run 1 false] y ∧ y.delivered = [1] ∧
    y.delivered <+: y.log.map Prod.snd ∧ bytesOf y.log 0 = [1, 2] := by
  have hrun : ∃ y, Trace Step fresh [.write 0 [1, 2], .run 0 false, .read 1 1, .run 1 false] y ∧
      y.delivered = [1] ∧ y.bufs[0]? = some [1, 2] ∧ (0, 2) ∈ y.rets := by
    refine ⟨_, .cons ⟨⟨rfl, rfl⟩, rfl⟩ (.cons ⟨⟨nofun, rfl⟩, rfl⟩ (.cons ⟨⟨rfl, rfl⟩, rfl⟩
      (.cons ⟨⟨nofun, rfl⟩, rfl⟩ (.nil _)))), rfl, rfl, ?_⟩
    decide
  obtain ⟨y, hrun, hdel, hbuf, hret⟩ := hrun
  obtain ⟨-, htaken, hcalls⟩ := pipe_is_fifo fresh_fresh hrun
  exact ⟨y, hrun, hdel, htaken, (hcalls 0 _ hbuf).2 hret⟩

/-! ### Wakeups -/

/-- Who is asleep has nothing to read, or no room to write. -/
def NoLostWakeup (x : PipeSys P) : Prop := ∀ p,
  (x.asleep p = some .nread → x.pipe.isEmpty ∧ x.pipe.writeopen = true) ∧
  (x.asleep p = some .nwrite → x.pipe.isFull ∧ x.pipe.readopen = true)

/-- A call of `pipewrite` that would give up at a full pipe, being killed or without a reader, finds
room for all of its bytes or for none when it gets the lock. -/
def StoresOrWakes (x : PipeSys P) : PipeLabel P → Prop
  | .run p _ => ∀ id buf i, x.phase p = .write id buf i →
      x.pipe.readopen = false ∨ x.killed p = true →
      buf.length - i ≤ x.pipe.room ∨ x.pipe.isFull
  | _ => True

omit [DecidableEq P] in
theorem asleep_wakeup {c c' : PipeChan} :
    (x.wakeup c).asleep p = some c' ↔ c' ≠ c ∧ x.asleep p = some c' := by
  unfold wakeup
  dsimp only
  split
  next h =>
    rw [h]
    simp
    exact fun hne he => hne he.symm
  next h =>
    refine ⟨fun h' => ⟨fun hc => h (hc ▸ h'), h'⟩, fun h' => h'.2⟩

theorem asleep_sleep {c : PipeChan} {late : Bool} :
    (x.sleep p c late).asleep q = if q = p then some c else x.asleep q := Function.update_apply ..

omit [DecidableEq P] in
/-- A writer that is asleep stays right while another fills the pipe: it was full. -/
theorem NoLostWakeup.fill {l : List Byte} (h : x.NoLostWakeup) (hp : x.asleep p = some .nwrite) :
    (x.pipe.fill l).1.isFull ∧ (x.pipe.fill l).1.readopen = true := by
  obtain ⟨hfull, hopen⟩ := (h p).2 hp
  rw [Pipe.fill_of_full hfull]
  exact ⟨hfull, hopen⟩

theorem NoLostWakeup.pipewrite {late : Bool} {id : Nat} {buf : List Byte} {i : Nat}
    (h : x.NoLostWakeup) (hi : i ≤ buf.length)
    (hgive : i + (x.pipe.fill (buf.drop i)).2 ≠ buf.length →
      (x.pipe.fill (buf.drop i)).1.readopen = false ∨ x.killed p = true →
      (x.pipe.fill (buf.drop i)).2 = 0)
    (hle : (x.pipe.fill (buf.drop i)).2 ≤ (buf.drop i).length) :
    (x.pipewrite p late id buf i).NoLostWakeup := by
  unfold PipeSys.pipewrite
  dsimp only
  split
  · intro q
    refine ⟨fun hq => ?_, fun hq => ?_⟩
    · exact absurd rfl (asleep_wakeup.mp hq).1
    · exact h.fill (asleep_wakeup.mp hq).2
  next hall =>
    split
    next hgiven =>
      -- nothing was stored, so the pipe is as it was
      intro q
      have hsame := Pipe.fill_of_zero (hgive hall hgiven)
      show (_ → (x.pipe.fill (buf.drop i)).1.isEmpty ∧ _) ∧ (_ → (x.pipe.fill _).1.isFull ∧ _)
      rw [hsame]
      exact h q
    next hgo =>
      have hfull : (x.pipe.fill (buf.drop i)).1.isFull := by
        refine Pipe.fill_stops (Nat.lt_of_le_of_ne hle fun he => hall ?_)
        rw [he, List.length_drop]
        omega
      have hopen : (x.pipe.fill (buf.drop i)).1.readopen = true := by
        rw [not_or, Bool.not_eq_false] at hgo
        exact hgo.1
      intro q
      by_cases hqp : q = p
      · subst hqp
        refine ⟨fun hq => ?_, fun _ => ⟨hfull, hopen⟩⟩
        change (sleep _ q .nwrite late).asleep q = _ at hq
        rw [asleep_sleep, if_pos rfl] at hq
        cases hq
      · refine ⟨fun hq => ?_, fun _ => ⟨hfull, hopen⟩⟩
        change (sleep _ p .nwrite late).asleep q = _ at hq
        rw [asleep_sleep, if_neg hqp] at hq
        exact absurd rfl (asleep_wakeup.mp hq).1

theorem NoLostWakeup.piperead {late : Bool} {n : Nat} (h : x.NoLostWakeup) :
    (x.piperead p late n).NoLostWakeup := by
  unfold PipeSys.piperead
  split
  next hempty =>
    split
    · exact h
    · intro q
      by_cases hqp : q = p
      · subst hqp
        refine ⟨fun _ => hempty, fun hq => ?_⟩
        rw [asleep_sleep, if_pos rfl] at hq
        cases hq
      · rw [asleep_sleep, if_neg hqp]
        exact h q
  next hdata =>
    intro q
    refine ⟨fun hq => ?_, fun hq => ?_⟩
    · exact absurd ((h q).1 (asleep_wakeup.mp hq).2) hdata
    · exact absurd rfl (asleep_wakeup.mp hq).1

omit [DecidableEq P] in
theorem NoLostWakeup.pipeclose {writable : Bool} (h : x.NoLostWakeup) :
    (x.pipeclose writable).NoLostWakeup := by
  intro q
  cases writable with
  | true =>
    refine ⟨fun hq => ?_, fun hq => ?_⟩
    · exact absurd rfl (asleep_wakeup.mp hq).1
    · exact (h q).2 (asleep_wakeup.mp hq).2
  | false =>
    refine ⟨fun hq => ?_, fun hq => ?_⟩
    · exact (h q).1 (asleep_wakeup.mp hq).2
    · exact absurd rfl (asleep_wakeup.mp hq).1

theorem NoLostWakeup.step {l : PipeLabel P} (h : x.NoLostWakeup) (hfifo : x.Fifo)
    (hs : x.Step l y) (hw : x.StoresOrWakes l) : y.NoLostWakeup := by
  obtain ⟨hen, rfl⟩ := hs
  cases l with
  | write p buf => exact h
  | read p n => exact h
  | run p late =>
    rw [exec]
    cases hp : x.phase p with
    | idle => exact h
    | write id buf i =>
      have hi := (hfifo.busy hp).2.1
      refine h.pipewrite hi (fun hall hgive => ?_) (Pipe.fill_spec hfifo.ring).2
      rw [Pipe.fill_open.1] at hgive
      rcases hw id buf i hp hgive with hroom | hfull
      · rw [← List.length_drop] at hroom
        rw [Pipe.fill_room hfifo.ring hroom, List.length_drop] at hall
        omega
      · rw [Pipe.fill_of_full hfull]
    | read n => exact h.piperead
  | close writable => exact h.pipeclose
  | kill p =>
    intro q
    by_cases hqp : q = p
    · subst hqp
      have hq : (x.exec (.kill q)).asleep q = none := update_self ..
      rw [hq]
      exact ⟨nofun, nofun⟩
    · have hq : (x.exec (.kill p)).asleep q = x.asleep q := update_of_ne hqp ..
      rw [hq]
      exact h q

/-- In a run in which no call of `pipewrite` gives up after it has stored bytes, every state
is without lost wakeups. -/
theorem no_lost_wakeups {ls : List (PipeLabel P)} (hx : x.Fresh)
    (hrun : Trace (fun x l y => Step x l y ∧ StoresOrWakes x l) x ls y) : y.NoLostWakeup := by
  have hrun' : ∀ {x : PipeSys P}, x.Fifo → x.NoLostWakeup →
      Trace (fun x l y => Step x l y ∧ StoresOrWakes x l) x ls y → y.NoLostWakeup := by
    clear hrun hx
    intro x hfifo h hrun
    induction hrun with
    | nil => exact h
    | cons hs _ ih => exact ih (hfifo.step hs.1) (h.step hfifo hs.1 hs.2)
  refine hrun' hx.fifo (fun p => ?_) hrun
  rw [(hx.idle p).2]
  exact ⟨nofun, nofun⟩

/-- A reader sleeps, and a writer fills the pipe and sleeps too. -/
theorem no_lost_wakeups_full : ∃ y, Trace (fun x l y => Step x l y ∧ StoresOrWakes x l) fresh
      [.read 0 1, .run 0 false, .write 1 (List.replicate 513 0), .run 1 false] y ∧
    y.NoLostWakeup := by
  have hrun : ∃ y, Trace (fun x l y => Step x l y ∧ StoresOrWakes x l) fresh
      [.read 0 1, .run 0 false, .write 1 (List.replicate 513 0), .run 1 false] y := by
    refine ⟨_, .cons ⟨⟨⟨rfl, rfl⟩, rfl⟩, trivial⟩ (.cons ⟨⟨⟨nofun, rfl⟩, rfl⟩, nofun⟩
      (.cons ⟨⟨⟨rfl, rfl⟩, rfl⟩, trivial⟩ (.cons ⟨⟨⟨nofun, rfl⟩, rfl⟩, ?_⟩ (.nil _))))⟩
    -- this writer is not killed, and the read end is open
    intro id buf i _ hgive
    exact absurd hgive (by decide)
  obtain ⟨y, hrun⟩ := hrun
  exact ⟨y, hrun, no_lost_wakeups fresh_fresh hrun⟩

/-- The steps of a run. -/
def runAll : PipeSys P → List (PipeLabel P) → PipeSys P
  | x, [] => x
  | x, l :: ls => (x.exec l).runAll ls

def AllEnabled : PipeSys P → List (PipeLabel P) → Prop
  | _, [] => True
  | x, l :: ls => x.Enabled l ∧ (x.exec l).AllEnabled ls

theorem trace_runAll : ∀ {ls : List (PipeLabel P)} {x : PipeSys P}, x.AllEnabled ls →
    Trace Step x ls (x.runAll ls) := by
  intro ls
  induction ls with
  | nil => exact fun _ => .nil _
  | cons l ls ih => exact fun h => .cons ⟨h.1, rfl⟩ (ih h.2)

/-- The writer of 513 bytes is killed. -/
def killedWriter : List (PipeLabel (Fin 2)) :=
  [.read ⟨0, Nat.zero_lt_two⟩ 1, .run ⟨0, Nat.zero_lt_two⟩ false,
    .write ⟨1, Nat.one_lt_two⟩ (List.replicate 513 0), .kill ⟨1, Nat.one_lt_two⟩,
    .run ⟨1, Nat.one_lt_two⟩ false]

/-- A reader sleeps on the empty pipe. A writer that is killed fills it, gives up on the byte
that has no room, and does not wake the reader. -/
theorem killed_writer_loses_wakeup : ∃ ls y, Trace Step fresh ls y ∧ ¬ y.NoLostWakeup := by
  have hasleep : (runAll fresh killedWriter).asleep 0 = some .nread := by decide +kernel
  have hdata : ¬ (runAll fresh killedWriter).pipe.isEmpty := by decide +kernel
  refine ⟨killedWriter, runAll fresh killedWriter, trace_runAll ?_,
    fun h => hdata ((h 0).1 hasleep).1⟩
  exact ⟨⟨rfl, rfl⟩, ⟨nofun, rfl⟩, ⟨rfl, rfl⟩, trivial, ⟨nofun, rfl⟩, trivial⟩

end PipeSys

end Xv6
